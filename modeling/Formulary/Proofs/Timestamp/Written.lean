import Formulary.Proofs.Number.Digits
import Formulary.Proofs.Text.Scan
import Formulary.Proofs.Token.Movement
/-!
Written timestamps. The text that is written for a timestamp in a formula is read as the timestamp,
if there is no fraction of a second (`ofFormulaText?_formulaText`), and what a formula denotes never
has one (`nanosecond_of_ofFormulaText?`). In the exchange format the fraction is written as well, and
every timestamp is read back (`ofExchangeText?_exchangeText`).
-/

set_option autoImplicit false
set_option relaxedAutoImplicit false

namespace Formulary

open Text Scan

theorem daysInMonth_le (year : Int) (month : Nat) : daysInMonth year month ≤ 31 := by
  unfold daysInMonth
  split <;> (try split) <;> decide

theorem month_le_of_daysInMonth {year : Int} {month : Nat} (h : 0 < daysInMonth year month) :
    month ≤ 12 := by
  unfold daysInMonth at h
  split at h <;> omega

/-- Months and days have two digits. -/
theorem Date.month_lt_day_lt (date : Date) : date.month < 100 ∧ date.day < 100 := by
  have hvalid := date.valid
  simp only [isDate, Bool.and_eq_true, decide_eq_true_eq] at hvalid
  obtain ⟨⟨-, hfirst⟩, hlast⟩ := hvalid
  have hmonth := month_le_of_daysInMonth (Nat.lt_of_lt_of_le hfirst hlast)
  have hday := daysInMonth_le date.year date.month
  exact ⟨by omega, by omega⟩

namespace Timestamp.Reader

/-- A number is read up to the width of its field, or up to what is not a digit. -/
theorem unsigned_append {most : Nat} {digits rest : List Char} (hsome : digits ≠ [])
    (hdigits : ∀ digit ∈ digits, digit.isDigit = true)
    (hstop : digits.length = most ∨
      digits.length ≤ most ∧ ∀ character ∈ rest.head?, character.isDigit = false) :
    unsigned most (digits ++ rest) = some (valueOfDigits digits, rest) := by
  have hlength : digits.length ≤ most := hstop.elim Nat.le_of_eq And.left
  have hmore : (rest.take (most - digits.length)).takeWhile Char.isDigit = [] := by
    rcases hstop with hfull | ⟨-, hrest⟩
    · rw [hfull, Nat.sub_self]
      rfl
    · cases rest with
      | nil => rw [List.take_nil]; rfl
      | cons character rest =>
        cases most - digits.length with
        | zero => rfl
        | succ count => simp [hrest character rfl]
  have hfound : ((digits ++ rest).take most).takeWhile Char.isDigit = digits := by
    rw [List.take_append, List.take_of_length_le hlength, List.takeWhile_append_of_pos hdigits,
      hmore, List.append_nil]
  have hread : Scan.digits most (digits ++ rest) = some (digits, rest) := by
    simp only [Scan.digits, hfound, List.drop_left]
  rw [unsigned, bind_of_some hread, if_neg (by simpa using hsome)]
  rfl

theorem blanks_of_head {text : List Char} (h : ∀ character ∈ text.head?, isBlank character = false) :
    blanks text = some ((), text) := by
  cases text with
  | nil => rfl
  | cons character text => simp [blanks, dropBlanks, h character rfl]

theorem not_isBlank_of_isDigit {character : Char} (h : character.isDigit = true) :
    isBlank character = false := by
  have hword := isWordCharacter_of_isNumeralCharacter (isNumeralCharacter_of_isDigit character h)
  simp only [isWordCharacter, Bool.not_eq_true', Bool.or_eq_false_iff] at hword
  exact hword.1

/-- Blanks may stand before digits, but need not. -/
theorem blanks_digits {digits rest : List Char} (hsome : digits ≠ [])
    (hdigits : ∀ digit ∈ digits, digit.isDigit = true) :
    blanks (digits ++ rest) = some ((), digits ++ rest) := by
  cases digits with
  | nil => exact absurd rfl hsome
  | cons digit digits =>
    refine blanks_of_head fun character hcharacter ↦ ?_
    obtain rfl : digit = character := Option.some.inj hcharacter
    exact not_isBlank_of_isDigit (hdigits digit List.mem_cons_self)

theorem twoDigits_paddedDigitsOf {value : Nat} (h : value < 100) (rest : List Char) :
    twoDigits (paddedDigitsOf 2 value ++ rest) = some (value, rest) := by
  have hsome := paddedDigitsOf_ne_nil 2 value
  have hread := @unsigned_append 2 _ rest hsome isDigit_of_mem_paddedDigitsOf
    (.inl (length_paddedDigitsOf (by decide) h))
  rw [twoDigits, bind_of_some (blanks_digits hsome isDigit_of_mem_paddedDigitsOf), hread,
    valueOfDigits_paddedDigitsOf]

/-- A year is read up to the hyphen after it. -/
theorem year_yearText (value : Int) (rest : List Char) :
    year (yearText value ++ '-' :: rest) = some (value, '-' :: rest) := by
  have hsome := paddedDigitsOf_ne_nil 4 value.natAbs
  have hsigned : unsigned (paddedDigitsOf 4 value.natAbs ++ '-' :: rest).length
      (paddedDigitsOf 4 value.natAbs ++ '-' :: rest) = some (value.natAbs, '-' :: rest) := by
    rw [unsigned_append hsome isDigit_of_mem_paddedDigitsOf, valueOfDigits_paddedDigitsOf]
    refine .inr ⟨by simp, ?_⟩
    rintro character ⟨⟩
    rfl
  have hnot (character : Char) (text : List Char) (hcharacter : isBlank character = false) :
      blanks (character :: text) = some ((), character :: text) := by
    refine blanks_of_head ?_
    rintro character ⟨⟩
    exact hcharacter
  unfold yearText year
  by_cases hplain : 0 ≤ value ∧ value ≤ 9999
  · rw [if_pos hplain, bind_of_some (blanks_digits hsome isDigit_of_mem_paddedDigitsOf)]
    have hread : unsigned 4 (paddedDigitsOf 4 value.natAbs ++ '-' :: rest) =
        some (value.natAbs, '-' :: rest) := by
      rw [unsigned_append hsome isDigit_of_mem_paddedDigitsOf, valueOfDigits_paddedDigitsOf]
      exact .inl (length_paddedDigitsOf (by decide) (by omega))
    have hvalue : (value.natAbs : Int) = value := Int.natAbs_of_nonneg hplain.1
    have hdigits := @isDigit_of_mem_paddedDigitsOf 4 value.natAbs
    generalize paddedDigitsOf 4 value.natAbs = digits at hread hsome hdigits
    cases digits with
    | nil => exact absurd rfl hsome
    | cons digit digits =>
      have hdigit := hdigits digit List.mem_cons_self
      rw [List.cons_append] at hread ⊢
      split
      · rename_i tail hsame
        obtain ⟨rfl, -⟩ := List.cons.inj hsame
        exact nomatch hdigit
      · rename_i tail hsame
        obtain ⟨rfl, -⟩ := List.cons.inj hsame
        exact nomatch hdigit
      · rw [hread]
        exact congrArg (fun read ↦ some (read, '-' :: rest)) hvalue
  · rw [if_neg hplain]
    by_cases hnegative : value < 0
    · rw [if_pos hnegative, List.cons_append, bind_of_some (hnot '-' _ rfl)]
      simp only [hsigned, Option.map_some, Option.some.injEq, Prod.mk.injEq, and_true]
      omega
    · rw [if_neg hnegative, List.cons_append, bind_of_some (hnot '+' _ rfl)]
      simp only [hsigned, Option.map_some, Option.some.injEq, Prod.mk.injEq, and_true]
      omega

/-- A date is read back whatever is allowed before its hyphens. -/
theorem date_text {gap : Scan Unit} (hgap : ∀ text, gap ('-' :: text) = some ((), '-' :: text))
    (date : Date) (rest : List Char) : Reader.date gap (date.text ++ rest) = some (date, rest) := by
  obtain ⟨hmonth, hday⟩ := date.month_lt_day_lt
  unfold Reader.date Date.text
  simp only [List.append_assoc, List.cons_append]
  rw [bind_of_some (year_yearText date.year _), bind_of_some (hgap _),
    bind_of_some (mark_cons '-' _), bind_of_some (twoDigits_paddedDigitsOf hmonth _),
    bind_of_some (hgap _), bind_of_some (mark_cons '-' _),
    bind_of_some (twoDigits_paddedDigitsOf hday _)]
  show (Date.ofParts? date.year date.month date.day).bind (fun found ↦ some (found, rest)) = _
  rw [Date.ofParts?, dif_pos date.valid]
  rfl

/-- A time of day is read back whatever is allowed before its colons, if its fraction is. -/
theorem dayTime_text {gap : Scan Unit} {fraction : Scan Nat} {time : DayTime}
    {rest after : List Char} (hgap : ∀ text, gap (':' :: text) = some ((), ':' :: text))
    (hfraction : fraction rest = some (time.nanosecond, after)) :
    dayTime gap fraction (time.text ++ rest) = some (time, after) := by
  have hvalid := time.valid
  simp only [isDayTime, Bool.and_eq_true, decide_eq_true_eq] at hvalid
  obtain ⟨⟨⟨hhour, hminute⟩, hsecond⟩, -⟩ := hvalid
  unfold dayTime DayTime.text
  simp only [List.append_assoc, List.cons_append]
  rw [bind_of_some (twoDigits_paddedDigitsOf (by omega) _), bind_of_some (hgap _),
    bind_of_some (mark_cons ':' _), bind_of_some (twoDigits_paddedDigitsOf (by omega) _),
    bind_of_some (hgap _), bind_of_some (mark_cons ':' _),
    bind_of_some (twoDigits_paddedDigitsOf (by omega) _), bind_of_some hfraction]
  show (DayTime.ofParts? time.hour time.minute time.second time.nanosecond).bind
    (fun found ↦ some (found, after)) = _
  rw [DayTime.ofParts?, dif_pos time.valid]
  rfl

/-- The fraction of a second is read back from as many places as it is written with. -/
theorem billionths_fractionText (time : DayTime) :
    billionths time.fractionText = some (time.nanosecond, []) := by
  have hvalid := time.valid
  simp only [isDayTime, Bool.and_eq_true, decide_eq_true_eq] at hvalid
  have hread (width value : Nat) (hwidth : 0 < width) (hmost : width ≤ 9)
      (hvalue : value < 10 ^ width) :
      billionths ('.' :: paddedDigitsOf width value) =
        some (value * Nat.pow 10 (9 - width), []) := by
    have hlength := length_paddedDigitsOf hwidth hvalue
    have hfound : ((paddedDigitsOf width value).take 9).takeWhile Char.isDigit =
        paddedDigitsOf width value := by
      rw [List.take_of_length_le (by omega), ← List.append_nil (paddedDigitsOf width value),
        List.takeWhile_append_of_pos isDigit_of_mem_paddedDigitsOf, List.takeWhile_nil]
    have hdigits : Scan.digits 9 (paddedDigitsOf width value) =
        some (paddedDigitsOf width value, []) := by
      simp only [Scan.digits, hfound, List.drop_length]
    have hsome := paddedDigitsOf_ne_nil width value
    simp only [billionths, hdigits, Option.bind_eq_bind, Option.bind_some, List.isEmpty_iff, hsome,
      if_false, valueOfDigits_paddedDigitsOf, hlength, List.dropWhile_nil]
  unfold DayTime.fractionText
  split
  · rename_i hzero
    rw [hzero]
    rfl
  · split
    · rw [hread 3 _ (by decide) (by decide) (by omega)]
      simp only [Option.some.injEq, Prod.mk.injEq, and_true]
      show time.nanosecond / 1000000 * 1000000 = time.nanosecond
      omega
    · split
      · rw [hread 6 _ (by decide) (by decide) (by omega)]
        simp only [Option.some.injEq, Prod.mk.injEq, and_true]
        show time.nanosecond / 1000 * 1000 = time.nanosecond
        omega
      · rw [hread 9 _ (by decide) (by decide) (by omega)]
        simp

theorem nanosecond_of_dayTime {gap : Scan Unit} {text rest : List Char} {time : DayTime}
    (h : dayTime gap (pure 0) text = some (time, rest)) : time.nanosecond = 0 := by
  obtain ⟨hour, afterHour, -, h⟩ := bind_eq_some_iff.mp h
  obtain ⟨_, afterGap, -, h⟩ := bind_eq_some_iff.mp h
  obtain ⟨_, afterMark, -, h⟩ := bind_eq_some_iff.mp h
  obtain ⟨minute, afterMinute, -, h⟩ := bind_eq_some_iff.mp h
  obtain ⟨_, afterGap', -, h⟩ := bind_eq_some_iff.mp h
  obtain ⟨_, afterMark', -, h⟩ := bind_eq_some_iff.mp h
  obtain ⟨second, afterSecond, -, h⟩ := bind_eq_some_iff.mp h
  obtain ⟨nanosecond, final, hnone, h⟩ := bind_eq_some_iff.mp h
  obtain ⟨rfl, rfl⟩ := Prod.mk.inj (Option.some.inj hnone)
  obtain ⟨found, hfound, hsame⟩ := Option.bind_eq_some_iff.mp h
  obtain ⟨rfl, rfl⟩ := Prod.mk.inj (Option.some.inj hsame)
  rw [DayTime.ofParts?, Option.dite_none_right_eq_some] at hfound
  obtain ⟨hvalid, hparts⟩ := hfound
  rw [← Option.some.inj hparts]

end Timestamp.Reader

/-! ### Characters -/

/-- The characters that timestamps are written with in a formula. -/
def isTimestampCharacter (character : Char) : Bool :=
  character.isDigit || ['-', '+', ':', 'T'].contains character

theorem isTimestampCharacter_of_mem_paddedDigitsOf {width value : Nat} :
    ∀ digit ∈ paddedDigitsOf width value, isTimestampCharacter digit = true :=
  fun digit hdigit ↦ by simp [isTimestampCharacter, isDigit_of_mem_paddedDigitsOf digit hdigit]

theorem isTimestampCharacter_of_mem_formulaText {timestamp : Timestamp} :
    ∀ character ∈ timestamp.formulaText, isTimestampCharacter character = true := by
  have hyear : ∀ character ∈ yearText timestamp.date.year, isTimestampCharacter character = true := by
    unfold yearText
    split
    · exact isTimestampCharacter_of_mem_paddedDigitsOf
    · refine List.forall_mem_cons.mpr ⟨?_, isTimestampCharacter_of_mem_paddedDigitsOf⟩
      split <;> rfl
  have hmark (mark : Char) (hmark : mark ∈ ['-', '+', ':', 'T']) :
      isTimestampCharacter mark = true := by
    simp [isTimestampCharacter, hmark]
  have hdate : ∀ character ∈ timestamp.date.text, isTimestampCharacter character = true := by
    simp only [Date.text, List.forall_mem_append, List.forall_mem_cons]
    exact ⟨⟨hyear, hmark '-' (by decide), isTimestampCharacter_of_mem_paddedDigitsOf⟩,
      hmark '-' (by decide), isTimestampCharacter_of_mem_paddedDigitsOf⟩
  unfold Timestamp.formulaText
  split
  · exact hdate
  · simp only [DayTime.text, List.forall_mem_append, List.forall_mem_cons]
    exact ⟨hdate, hmark 'T' (by decide), ⟨isTimestampCharacter_of_mem_paddedDigitsOf,
      hmark ':' (by decide), isTimestampCharacter_of_mem_paddedDigitsOf⟩,
      hmark ':' (by decide), isTimestampCharacter_of_mem_paddedDigitsOf⟩

/-! ### Timestamps -/

namespace Timestamp

open Reader

/-- What is written for a timestamp in a formula is read as the timestamp. -/
theorem ofFormulaText?_formulaText {timestamp : Timestamp} (h : timestamp.time.nanosecond = 0) :
    ofFormulaText? timestamp.formulaText = some timestamp := by
  obtain ⟨date, time⟩ := timestamp
  unfold formulaText ofFormulaText?
  by_cases hmidnight : time = .midnight
  · have hdate := @date_text (pure ()) (fun _ ↦ rfl) date []
    rw [List.append_nil] at hdate
    have hjoined : dateAndTime (pure ()) (mark 'T') (pure 0) date.text = none := by
      rw [dateAndTime, bind_of_some hdate]
      rfl
    have hapart : dateAndTime (pure ()) blanks (pure 0) date.text = none := by
      rw [dateAndTime, bind_of_some hdate]
      rfl
    simp only [hmidnight, if_true, whole, hjoined, hapart, hdate]
    rfl
  · have hread : dateAndTime (pure ()) (mark 'T') (pure 0) (date.text ++ 'T' :: time.text) =
        some (⟨date, time⟩, []) := by
      have hfraction : (pure 0 : Scan Nat) [] = some (time.nanosecond, []) := by
        rw [h]
        rfl
      have htime := @dayTime_text (pure ()) _ _ _ _ (fun _ ↦ rfl) hfraction
      rw [List.append_nil] at htime
      rw [dateAndTime, bind_of_some (date_text (fun _ ↦ rfl) date _),
        bind_of_some (mark_cons 'T' _), bind_of_some htime]
      rfl
    simp only [hmidnight, if_false, whole, hread]
    rfl

/-- What is written for a timestamp in the exchange format is read as the timestamp. -/
theorem ofExchangeText?_exchangeText (timestamp : Timestamp) :
    ofExchangeText? timestamp.exchangeText = some timestamp := by
  obtain ⟨date, time⟩ := timestamp
  have hgap (character : Char) (hcharacter : isBlank character = false) (text : List Char) :
      blanks (character :: text) = some ((), character :: text) := by
    refine blanks_of_head ?_
    rintro _ ⟨⟩
    exact hcharacter
  have hbetween (text : List Char) :
      (do blanks; mark 'T' : Scan Unit) ('T' :: text) = some ((), text) := by
    rw [bind_of_some (hgap 'T' rfl text), mark_cons]
  have hread : dateAndTime blanks (do blanks; mark 'T') billionths
      (date.text ++ 'T' :: (time.text ++ time.fractionText)) = some (⟨date, time⟩, []) := by
    rw [dateAndTime, bind_of_some (date_text (hgap '-' rfl) date _), bind_of_some (hbetween _),
      bind_of_some (dayTime_text (hgap ':' rfl) (billionths_fractionText time))]
    rfl
  have hwhole : (do
      let timestamp ← dateAndTime blanks (do blanks; mark 'T') billionths
      blanks
      pure timestamp : Scan Timestamp) (date.text ++ 'T' :: (time.text ++ time.fractionText)) =
        some (⟨date, time⟩, []) := by
    rw [bind_of_some hread]
    rfl
  simp only [exchangeText, ofExchangeText?, List.append_assoc, List.cons_append, whole, hwhole]

/-- No fraction of a second can be written in a formula. -/
theorem nanosecond_of_ofFormulaText? {text : List Char} {timestamp : Timestamp}
    (h : ofFormulaText? text = some timestamp) : timestamp.time.nanosecond = 0 := by
  have hwhole {α : Type} {scan : Scan α} {value : α} (hread : whole scan text = some value) :
      scan text = some (value, []) := by
    unfold whole at hread
    split at hread
    · rename_i found hscan
      rw [hscan, Option.some.inj hread]
    · exact nomatch hread
  have hapart (between : Scan Unit)
      (hread : whole (dateAndTime (pure ()) between (pure 0)) text = some timestamp) :
      timestamp.time.nanosecond = 0 := by
    obtain ⟨date, afterDate, -, hread⟩ := bind_eq_some_iff.mp (hwhole hread)
    obtain ⟨_, middle, -, hread⟩ := bind_eq_some_iff.mp hread
    obtain ⟨time, afterTime, htime, hread⟩ := bind_eq_some_iff.mp hread
    obtain ⟨rfl, rfl⟩ := Prod.mk.inj (Option.some.inj hread)
    exact nanosecond_of_dayTime htime
  simp only [ofFormulaText?, Option.orElse_eq_orElse, Option.orElse_eq_or, Option.or_eq_some_iff,
    Option.map_eq_some_iff] at h
  rcases h with hread | ⟨-, hread | ⟨-, date, -, rfl⟩⟩
  · exact hapart _ hread
  · exact hapart _ hread
  · rfl

end Timestamp

end Formulary
