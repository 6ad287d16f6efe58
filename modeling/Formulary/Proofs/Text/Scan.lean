import Formulary.Proofs.Lists
import Formulary.Text.Scan
/-!
Scanners run on a text part by part. A sequence of scanners takes a value off the front of a text if
each of them does so in turn (`bind_eq_some_iff`), and a run takes what is in front of the first
character outside its class (`run_append`).
-/

set_option autoImplicit false
set_option relaxedAutoImplicit false

namespace Formulary.Text.Scan

variable {α β : Type}

theorem bind_eq_some_iff {scan : Scan α} {next : α → Scan β} {text rest : List Char} {value : β} :
    (scan >>= next) text = some (value, rest) ↔
      ∃ found middle, scan text = some (found, middle) ∧ next found middle = some (value, rest) := by
  show (scan text).bind (fun read ↦ next read.1 read.2) = some (value, rest) ↔ _
  rw [Option.bind_eq_some_iff]
  exact ⟨fun ⟨read, hscan, hnext⟩ ↦ ⟨read.1, read.2, hscan, hnext⟩,
    fun ⟨found, middle, hscan, hnext⟩ ↦ ⟨(found, middle), hscan, hnext⟩⟩

theorem bind_of_some {scan : Scan α} {next : α → Scan β} {text middle : List Char} {found : α}
    (h : scan text = some (found, middle)) : (scan >>= next) text = next found middle := by
  show (scan text).bind (fun read ↦ next read.1 read.2) = _
  rw [h]
  rfl

theorem mark_cons (character : Char) (text : List Char) :
    mark character (character :: text) = some ((), text) :=
  if_pos rfl

theorem run_append {inClass : Char → Bool} {found text : List Char}
    (hfound : ∀ character ∈ found, inClass character = true)
    (htext : ∀ character ∈ text.head?, inClass character = false) :
    run inClass (found ++ text) = some (found, text) := by
  obtain ⟨htaken, hleft⟩ := span_append hfound htext
  rw [run, htaken, hleft]

end Formulary.Text.Scan
