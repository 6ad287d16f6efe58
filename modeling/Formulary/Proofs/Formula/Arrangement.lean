import Formulary.Formula
import Formulary.Outline.Printer
import Mathlib.Data.List.Nodup
/-!
The arrangement of keyword arguments. They may be supplied in any order, since only what is supplied
under each name matters (`arrangeKeywords_perm`), and nothing that is supplied gets lost: in the order
of declaration it is the same up to its order (`exists_perm_of_arrangeKeywords`).
-/

set_option autoImplicit false
set_option relaxedAutoImplicit false

namespace Formulary

variable {supplied other : List (String × Outline)}

/-- If no name is repeated, a name stands for whatever is supplied under it. -/
theorem lookup_eq_some_iff_mem (hnames : (supplied.map Prod.fst).Nodup) {name : String}
    {outline : Outline} : supplied.lookup name = some outline ↔ (name, outline) ∈ supplied := by
  induction supplied with
  | nil => simp
  | cons entry supplied ih =>
    obtain ⟨own, value⟩ := entry
    rw [List.map_cons, List.nodup_cons] at hnames
    by_cases hname : name = own
    · subst hname
      rw [List.lookup_cons_self, Option.some.injEq, List.mem_cons, Prod.mk.injEq]
      refine ⟨fun h ↦ .inl ⟨rfl, h.symm⟩, fun h ↦ ?_⟩
      rcases h with ⟨-, h⟩ | hlater
      · exact h.symm
      · exact absurd (List.mem_map_of_mem hlater) hnames.1
    · have hother : (name == own) = false := beq_eq_false_iff_ne.mpr hname
      simp [List.lookup_cons, hother, hname, ih hnames.2]

theorem nodup_filter (hnames : (supplied.map Prod.fst).Nodup)
    (property : String × Outline → Bool) :
    ((supplied.filter property).map Prod.fst).Nodup :=
  hnames.sublist (List.filter_sublist.map Prod.fst)

/-- The order in which keyword arguments are supplied does not matter. -/
theorem arrangeKeywords_perm {group : List Keyword} (hperm : supplied.Perm other)
    (hnames : (supplied.map Prod.fst).Nodup) :
    arrangeKeywords group supplied = arrangeKeywords group other := by
  induction group generalizing supplied other with
  | nil => rfl
  | cons keyword group ih =>
    have hnames' : (other.map Prod.fst).Nodup := (hperm.map Prod.fst).nodup_iff.mp hnames
    have hlookup : supplied.lookup keyword.name = other.lookup keyword.name := by
      ext outline
      rw [lookup_eq_some_iff_mem hnames, lookup_eq_some_iff_mem hnames', hperm.mem_iff]
    rw [arrangeKeywords, arrangeKeywords, hlookup]
    split
    · rw [ih (hperm.filter _) (nodup_filter hnames _)]
    · rw [ih hperm hnames]

/-- What is supplied under a name, and what is supplied under the others. -/
theorem perm_cons_filter (hnames : (supplied.map Prod.fst).Nodup) {name : String}
    {outline : Outline} (hmem : (name, outline) ∈ supplied) :
    ((name, outline) :: supplied.filter fun entry ↦ entry.1 != name).Perm supplied := by
  induction supplied with
  | nil => exact absurd hmem List.not_mem_nil
  | cons entry supplied ih =>
    rw [List.map_cons, List.nodup_cons] at hnames
    rcases List.mem_cons.mp hmem with rfl | hlater
    · have hall : supplied.filter (fun entry ↦ entry.1 != name) = supplied := by
        refine List.filter_eq_self.mpr fun entry hentry ↦ bne_iff_ne.mpr fun hsame ↦ ?_
        exact hnames.1 (List.mem_map.mpr ⟨entry, hentry, hsame⟩)
      rw [List.filter_cons_of_neg (by simp), hall]
    · have hother : entry.1 ≠ name := by
        intro hsame
        exact hnames.1 (List.mem_map.mpr ⟨_, hlater, hsame.symm⟩)
      rw [List.filter_cons_of_pos (by simpa using hother)]
      exact (List.Perm.swap _ _ _).trans ((ih hnames.2 hlater).cons entry)

/-- A keyword argument that is left out is not supplied. -/
theorem isSupplied_absent (keyword : Keyword) : keyword.absent.isSupplied = false := by
  obtain ⟨name, type, default⟩ := keyword
  cases type <;> rfl

/-- An arrangement has an entry for each declaration: what was supplied for it, if anything. -/
def arrangement (entries : List (Keyword × Option (String × Outline))) : List Outline :=
  entries.map fun (keyword, entry) ↦ entry.elim keyword.absent Prod.snd

/-- What was supplied stands at the first declaration of its name. -/
def PutsFirst (entries : List (Keyword × Option (String × Outline))) : Prop :=
  ∀ earlier keyword entry later, entries = earlier ++ (keyword, some entry) :: later →
    entry.1 = keyword.name ∧ keyword.name ∉ earlier.map fun other ↦ other.1.name

theorem putsFirst_cons {keyword : Keyword} {own : Option (String × Outline)}
    {entries : List (Keyword × Option (String × Outline))}
    (hown : ∀ entry, own = some entry → entry.1 = keyword.name)
    (hothers : ∀ entry ∈ entries.filterMap Prod.snd, entry.1 ≠ keyword.name)
    (h : PutsFirst entries) : PutsFirst ((keyword, own) :: entries) := by
  intro earlier other entry later hentries
  cases earlier with
  | nil =>
    obtain ⟨hfirst, -⟩ := List.cons.inj hentries
    obtain ⟨rfl, hentry⟩ := Prod.mk.inj hfirst
    exact ⟨hown entry hentry, List.not_mem_nil⟩
  | cons first earlier =>
    obtain ⟨rfl, rfl⟩ := List.cons.inj hentries
    obtain ⟨hname, hearlier⟩ := h earlier other entry later rfl
    have hentry : entry ∈ (earlier ++ (other, some entry) :: later).filterMap Prod.snd :=
      List.mem_filterMap.mpr ⟨(other, some entry), by simp, rfl⟩
    refine ⟨hname, List.not_mem_cons_of_ne_of_not_mem ?_ hearlier⟩
    rw [← hname]
    exact hothers entry hentry

/-- In the order of declaration, each keyword argument is absent or one of those that were supplied,
each of which stands at the first declaration of its name, and none of which gets lost. -/
theorem exists_arrangement {group : List Keyword} (hnames : (supplied.map Prod.fst).Nodup)
    (hgroup : ∀ entry ∈ supplied, ∃ keyword ∈ group, keyword.name = entry.1) :
    ∃ entries : List (Keyword × Option (String × Outline)),
      entries.map Prod.fst = group ∧ arrangeKeywords group supplied = arrangement entries ∧
        (entries.filterMap Prod.snd).Perm supplied ∧ PutsFirst entries := by
  induction group generalizing supplied with
  | nil =>
    have hnone : supplied = [] := by
      refine List.eq_nil_iff_forall_not_mem.mpr fun entry hentry ↦ ?_
      obtain ⟨keyword, hkeyword, -⟩ := hgroup entry hentry
      exact List.not_mem_nil hkeyword
    subst hnone
    refine ⟨[], rfl, rfl, .nil, fun earlier keyword entry later h ↦ ?_⟩
    exact absurd h.symm (List.append_ne_nil_of_right_ne_nil _ (List.cons_ne_nil _ _))
  | cons keyword group ih =>
    rw [arrangeKeywords]
    have hlater (entry : String × Outline) (hentry : entry ∈ supplied)
        (hname : entry.1 ≠ keyword.name) : ∃ later ∈ group, later.name = entry.1 := by
      obtain ⟨own, hown, hsame⟩ := hgroup entry hentry
      rcases List.mem_cons.mp hown with rfl | hown
      · exact absurd hsame.symm hname
      · exact ⟨own, hown, hsame⟩
    split
    · rename_i outline hlookup
      have hmem := (lookup_eq_some_iff_mem hnames).mp hlookup
      have hothers (entry : String × Outline)
          (hentry : entry ∈ supplied.filter fun entry ↦ entry.1 != keyword.name) :
          entry ∈ supplied ∧ entry.1 ≠ keyword.name := by
        simpa using List.mem_filter.mp hentry
      obtain ⟨entries, rfl, harranged, hperm, hfirst⟩ := ih (nodup_filter hnames _)
        fun entry hentry ↦ hlater entry (hothers entry hentry).1 (hothers entry hentry).2
      refine ⟨(keyword, some (keyword.name, outline)) :: entries, rfl, congrArg _ harranged,
        (hperm.cons _).trans (perm_cons_filter hnames hmem), putsFirst_cons ?_ ?_ hfirst⟩
      · rintro _ ⟨⟩
        rfl
      · exact fun entry hentry ↦ (hothers entry (hperm.mem_iff.mp hentry)).2
    · rename_i hlookup
      have hothers (entry : String × Outline) (hentry : entry ∈ supplied) :
          entry.1 ≠ keyword.name := by
        intro hsame
        simpa [hsame] using List.lookup_eq_none_iff.mp hlookup entry hentry
      obtain ⟨entries, rfl, harranged, hperm, hfirst⟩ := ih hnames fun entry hentry ↦
        hlater entry hentry (hothers entry hentry)
      refine ⟨(keyword, none) :: entries, rfl, congrArg _ harranged, hperm,
        putsFirst_cons ?_ ?_ hfirst⟩
      · rintro _ ⟨⟩
      · exact fun entry hentry ↦ hothers entry (hperm.mem_iff.mp hentry)

/-- In the order of declaration stand those keyword arguments that were supplied, up to their order,
and others that are absent. -/
theorem exists_perm_filter_arrangeKeywords (keeps : Outline → Bool)
    (habsent : ∀ keyword : Keyword, keeps keyword.absent = false) {group : List Keyword}
    (hnames : (supplied.map Prod.fst).Nodup)
    (hgroup : ∀ entry ∈ supplied, ∃ keyword ∈ group, keyword.name = entry.1) :
    ∃ ordered : List (String × Outline), ordered.Perm supplied ∧
      (arrangeKeywords group supplied).filter keeps = (ordered.map Prod.snd).filter keeps := by
  obtain ⟨entries, -, harranged, hperm, -⟩ := exists_arrangement hnames hgroup
  refine ⟨_, hperm, ?_⟩
  rw [harranged, arrangement]
  clear harranged hperm
  induction entries with
  | nil => rfl
  | cons entry entries ih =>
    obtain ⟨keyword, _ | entry⟩ := entry
    · rw [List.map_cons, List.filter_cons_of_neg (by simp [habsent])]
      exact ih
    · change (entry.2 :: arrangement entries).filter keeps =
        (entry.2 :: (entries.filterMap Prod.snd).map Prod.snd).filter keeps
      rw [List.filter_cons, List.filter_cons, arrangement, ih]

/-- The keyword arguments in the order of declaration are, up to their order, those that were supplied
and others that are absent. -/
theorem exists_perm_append_absent {group : List Keyword} (hnames : (supplied.map Prod.fst).Nodup)
    (hgroup : ∀ entry ∈ supplied, ∃ keyword ∈ group, keyword.name = entry.1) :
    ∃ missing : List Keyword, (arrangeKeywords group supplied).Perm
      (supplied.map Prod.snd ++ missing.map Keyword.absent) := by
  obtain ⟨entries, -, harranged, hperm, -⟩ := exists_arrangement hnames hgroup
  suffices h : ∃ missing : List Keyword, (arrangement entries).Perm
      ((entries.filterMap Prod.snd).map Prod.snd ++ missing.map Keyword.absent) by
    obtain ⟨missing, hmissing⟩ := h
    refine ⟨missing, harranged ▸ hmissing.trans ?_⟩
    exact (hperm.map Prod.snd).append_right _
  clear harranged hperm
  induction entries with
  | nil => exact ⟨[], .nil⟩
  | cons entry entries ih =>
    obtain ⟨missing, hmissing⟩ := ih
    obtain ⟨keyword, _ | entry⟩ := entry
    · exact ⟨keyword :: missing, (hmissing.cons keyword.absent).trans List.perm_middle.symm⟩
    · exact ⟨missing, hmissing.cons entry.2⟩

/-- In the order of declaration, the keyword arguments that are supplied are those that were, up to
their order. -/
theorem exists_perm_of_arrangeKeywords {group : List Keyword}
    (hnames : (supplied.map Prod.fst).Nodup)
    (hgroup : ∀ entry ∈ supplied, ∃ keyword ∈ group, keyword.name = entry.1)
    (hfilled : ∀ entry ∈ supplied, entry.2.isSupplied = true) :
    ∃ ordered : List (String × Outline), ordered.Perm supplied ∧
      (arrangeKeywords group supplied).filter Outline.isSupplied = ordered.map Prod.snd := by
  obtain ⟨ordered, hperm, hordered⟩ :=
    exists_perm_filter_arrangeKeywords _ isSupplied_absent hnames hgroup
  refine ⟨ordered, hperm, hordered.trans (List.filter_eq_self.mpr fun outline houtline ↦ ?_)⟩
  obtain ⟨entry, hentry, rfl⟩ := List.mem_map.mp houtline
  exact hfilled entry (hperm.mem_iff.mp hentry)

end Formulary
