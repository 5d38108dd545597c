import Mathlib.Data.List.Intervals
import Precedence.Scanner

/-!
# Transcripts

The transcript of a scanner is what it gives when it is asked again and again, its readings
numbered from 0.  A reader that has been given an end is given no more of the transcript, but that
end for ever.
-/

namespace Precedence

abbrev Transcript := Nat → Reading

namespace Scanner

variable {σ : Type} [Scanner σ]

theorem take_append (n k : Nat) (scanner : σ) :
    take (n + k) scanner =
      ((take n scanner).1 ++ (take k (take n scanner).2).1, (take k (take n scanner).2).2) := by
  induction n generalizing scanner with
  | zero => rw [Nat.zero_add, take, List.nil_append]
  | succ n ih =>
      rw [Nat.add_right_comm]
      simp only [take]
      rw [ih (next scanner).2]
      rfl

theorem take_add (n k : Nat) (scanner : σ) :
    (take (n + k) scanner).2 = (take k (take n scanner).2).2 := by
  rw [take_append]

/-- Reading `n` is what the scanner gives after `n` other readings. -/
def transcript (source : σ) : Transcript := fun n => (next (take n source).2).1

theorem next_take (source : σ) (n : Nat) :
    next (take n source).2 = (transcript source n, (take (n + 1) source).2) := by
  rw [take_add n 1]
  rfl

theorem take_eq_map (n : Nat) (source : σ) :
    (take n source).1 = (List.range n).map (transcript source) := by
  induction n generalizing source with
  | zero => rfl
  | succ n ih =>
      rw [List.range_succ_eq_map, List.map_cons, List.map_map]
      exact congrArg (transcript source 0 :: ·) (ih (next source).2)

theorem length_take (n : Nat) (scanner : σ) : (take n scanner).1.length = n := by
  rw [take_eq_map, List.length_map, List.length_range]

/-- The transcript of a scanner that gives some readings and then one reading for ever. -/
theorem transcript_of_take {source : σ} {readings : List Reading} {last : Reading}
    (htake : ∀ n, (take (readings.length + n) source).1 = readings ++ List.replicate n last)
    (n : Nat) : transcript source n = readings[n]?.getD last := by
  have hread := congrArg (·[n]?) (htake (n + 1))
  have hlt : n < readings.length + (n + 1) := by omega
  simp only [take_eq_map, List.getElem?_map, List.getElem?_range hlt, Option.map_some] at hread
  rcases Nat.lt_or_ge n readings.length with hn | hn
  · rw [List.getElem?_append_left hn] at hread
    rw [← hread, Option.getD_some]
  · have hreplicate : n - readings.length < n + 1 := by omega
    rw [List.getElem?_append_right hn, List.getElem?_replicate_of_lt hreplicate] at hread
    rw [List.getElem?_eq_none hn]
    exact Option.some.inj hread

end Scanner

namespace Transcript

/-- Whether the reading just before number `pos` is an end. -/
def ended (transcript : Transcript) : Nat → Bool
  | 0 => false
  | pos + 1 => (transcript pos).isEof

/-- What a reader is given whose next reading is number `pos`, and the number of the one after. -/
def readAt (transcript : Transcript) (pos : Nat) : Reading × Nat :=
  if transcript.ended pos then (transcript (pos - 1), pos) else (transcript pos, pos + 1)

/-- The readings from number `first` on, up to number `last`, which is not one of them. -/
def slice (transcript : Transcript) (first last : Nat) : List Reading :=
  (List.Ico first last).map transcript

variable (transcript : Transcript)

@[simp] theorem length_slice (first last : Nat) :
    (transcript.slice first last).length = last - first := by
  rw [slice, List.length_map, List.Ico.length]

theorem mem_slice {first last : Nat} {reading : Reading} :
    reading ∈ transcript.slice first last ↔
      ∃ pos, (first ≤ pos ∧ pos < last) ∧ transcript pos = reading := by
  simp only [slice, List.mem_map, List.Ico.mem]

theorem slice_eq_nil {first last : Nat} (hle : last ≤ first) :
    transcript.slice first last = [] := by
  rw [slice, List.Ico.eq_nil_of_le hle, List.map_nil]

theorem slice_succ {first last : Nat} (hle : first ≤ last) :
    transcript.slice first (last + 1) = transcript.slice first last ++ [transcript last] := by
  rw [slice, List.Ico.succ_top hle, List.map_append]
  rfl

theorem slice_eq_cons {first last : Nat} (hlt : first < last) :
    transcript.slice first last = transcript first :: transcript.slice (first + 1) last := by
  rw [slice, List.Ico.eq_cons hlt, List.map_cons]
  rfl

theorem slice_append {first middle last : Nat} (hfirst : first ≤ middle) (hlast : middle ≤ last) :
    transcript.slice first middle ++ transcript.slice middle last =
      transcript.slice first last := by
  rw [slice, slice, ← List.map_append, List.Ico.append_consecutive hfirst hlast]
  rfl

theorem drop_slice (n first last : Nat) :
    (transcript.slice first last).drop n = transcript.slice (first + n) last := by
  rw [slice, ← List.map_drop, List.Ico, List.drop_range', Nat.mul_one, Nat.sub_sub]
  rfl

/-- The latest readings of a slice. -/
theorem take_reverse_slice (n first last : Nat) :
    (transcript.slice first last).reverse.take n =
      (transcript.slice (max first (last - n)) last).reverse := by
  have hfirst : first + (last - first - n) = max first (last - n) := by omega
  rw [List.take_reverse, length_slice, drop_slice, hfirst]

theorem take_slice {first middle last : Nat} (hfirst : first ≤ middle) (hlast : middle ≤ last) :
    (transcript.slice first last).take (middle - first) = transcript.slice first middle := by
  rw [← slice_append transcript hfirst hlast]
  exact List.take_left' (length_slice transcript first middle)

/-- A slice without its latest readings. -/
theorem drop_reverse_slice (n : Nat) {first last : Nat} (hle : first ≤ last) :
    (transcript.slice first last).reverse.drop n =
      (transcript.slice first (max first (last - n))).reverse := by
  have hmiddle : max first (last - n) ≤ last := Nat.max_le.mpr ⟨hle, Nat.sub_le _ _⟩
  have hlength : last - first - n = max first (last - n) - first := by omega
  rw [List.drop_reverse, length_slice, hlength, take_slice transcript (Nat.le_max_left _ _) hmiddle]

end Transcript

end Precedence
