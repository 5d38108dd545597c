import Precedence.Proofs.Scanner.Transcript
import Precedence.Proofs.Session
import Precedence.Scanner.Recording

/-!
# Laps over a recording

However many readers share a recording, and however their calls are interleaved, each of them goes
round the symbols that the scanner gives up to its first end, lap after lap.  The first reader
begins at the start, and a clone where its parent is.  An error of the scanner goes to the reader
whose call met it, which stays where it is, and no call asks the scanner after its end.
-/

namespace Precedence

def Reading.symbol? : Reading → Option Symbol
  | .ok symbol => some symbol
  | .error _ => none

def Reading.error? : Reading → Option Error
  | .ok _ => none
  | .error error => some error

namespace Transcript

variable (transcript : Transcript)

/-- The symbols among the first `n` readings. -/
def symbols (n : Nat) : List Symbol := (transcript.slice 0 n).filterMap Reading.symbol?

/-- The errors among the readings from number `first` on, up to number `last`. -/
def errors (first last : Nat) : List Error := (transcript.slice first last).filterMap Reading.error?

theorem symbols_succ_of_symbol {n : Nat} {symbol : Symbol} (hread : transcript n = .ok symbol) :
    transcript.symbols (n + 1) = transcript.symbols n ++ [symbol] := by
  rw [symbols, slice_succ transcript (Nat.zero_le n), List.filterMap_append, hread]
  rfl

theorem symbols_succ_of_error {n : Nat} {error : Error} (hread : transcript n = .error error) :
    transcript.symbols (n + 1) = transcript.symbols n := by
  rw [symbols, slice_succ transcript (Nat.zero_le n), List.filterMap_append, hread]
  exact List.append_nil _

theorem symbols_prefix {n m : Nat} (hle : n ≤ m) :
    transcript.symbols n <+: transcript.symbols m := by
  rw [symbols, symbols, ← slice_append transcript (Nat.zero_le n) hle, List.filterMap_append]
  exact List.prefix_append _ _

theorem errors_eq_nil {first last : Nat} (hle : last ≤ first) :
    transcript.errors first last = [] := by
  rw [errors, slice_eq_nil transcript hle, List.filterMap_nil]

theorem errors_append {first middle last : Nat} (hfirst : first ≤ middle) (hlast : middle ≤ last) :
    transcript.errors first middle ++ transcript.errors middle last =
      transcript.errors first last := by
  rw [errors, errors, ← List.filterMap_append, slice_append transcript hfirst hlast, errors]

theorem errors_eq_cons {first last : Nat} (hlt : first < last) :
    transcript.errors first last =
      (transcript first).error?.toList ++ transcript.errors (first + 1) last := by
  rw [errors, slice_eq_cons transcript hlt]
  cases herror : (transcript first).error? <;> simp [errors, herror]

end Transcript

/-- The readings of a transcript up to its first end. -/
structure Lap (transcript : Transcript) where
  last : Nat
  isEof_last : (transcript last).isEof = true
  isEof_of_lt : ∀ n < last, (transcript n).isEof = false

namespace Lap

variable {transcript : Transcript} (lap : Lap transcript)

theorem isEof_eq {n : Nat} (hn : n ≤ lap.last) :
    (transcript n).isEof = decide (n = lap.last) := by
  rcases Nat.lt_or_eq_of_le hn with hlt | rfl
  · rw [lap.isEof_of_lt n hlt, decide_eq_false (Nat.ne_of_lt hlt)]
  · rw [lap.isEof_last, decide_eq_true rfl]

/-- The symbols of the lap, the end included. -/
def symbols : List Symbol := transcript.symbols (lap.last + 1)

def size : Nat := lap.symbols.length

theorem length_symbols_lt {n : Nat} (hn : n ≤ lap.last) :
    (transcript.symbols n).length < lap.size := by
  have hlength := (transcript.symbols_prefix hn).length_le
  cases hlast : transcript lap.last with
  | error error => exact absurd lap.isEof_last (by simp [hlast, Reading.isEof])
  | ok symbol =>
      rw [size, symbols, transcript.symbols_succ_of_symbol hlast, List.length_append]
      exact Nat.lt_succ_of_le hlength

theorem size_pos : 0 < lap.size := Nat.zero_lt_of_lt (lap.length_symbols_lt (Nat.zero_le _))

/-- The symbol at a place, when the laps are counted through. -/
def entry (place : Nat) : Symbol :=
  lap.symbols.get ⟨place % lap.size, Nat.mod_lt place lap.size_pos⟩

theorem getElem?_symbols {n place : Nat} (hn : n ≤ lap.last + 1)
    (hplace : place % lap.size < (transcript.symbols n).length) :
    (transcript.symbols n)[place % lap.size]? = some (lap.entry place) := by
  rw [List.getElem?_eq_getElem hplace, (transcript.symbols_prefix hn).getElem]
  rfl

/-- A symbol that is read goes to the place after the symbols before it. -/
theorem entry_of_read {n : Nat} (hn : n ≤ lap.last) {symbol : Symbol}
    (hread : transcript n = .ok symbol) : lap.entry (transcript.symbols n).length = symbol := by
  have hsymbols := transcript.symbols_succ_of_symbol hread
  have hmod := Nat.mod_eq_of_lt (lap.length_symbols_lt hn)
  have hlt : (transcript.symbols n).length % lap.size < (transcript.symbols (n + 1)).length := by
    rw [hmod, hsymbols, List.length_append]
    exact Nat.lt_succ_self _
  have hentry := lap.getElem?_symbols (Nat.succ_le_succ hn) hlt
  rw [hmod, hsymbols, List.getElem?_concat_length] at hentry
  exact (Option.some.inj hentry).symm

theorem mod_succ (place : Nat) :
    (place + 1) % lap.size =
      if place % lap.size + 1 = lap.size then 0 else place % lap.size + 1 := by
  have hlt := Nat.mod_lt place lap.size_pos
  rw [← Nat.mod_add_mod]
  split
  · next hwraps => rw [hwraps, Nat.mod_self]
  · exact Nat.mod_eq_of_lt (by omega)

end Lap

/-- The readers of one recording, each with its index. -/
structure Readers (σ : Type) where
  recording : Recording σ
  indices : List Nat

/-- What is asked of some readers: one of them reads, or is cloned. -/
inductive ReaderRequest
  | read (reader : Nat)
  | clone (reader : Nat)
  deriving DecidableEq

/-- How far the scanner has been asked, and the place of each reader. -/
structure Progress where
  taken : Nat
  places : List Nat

def Readers.ofScanner {σ : Type} (source : σ) : Readers σ := ⟨.ofScanner source, [0]⟩

def Readers.serve {σ : Type} [Scanner σ] : ReaderRequest → Readers σ → Option Reading × Readers σ
  | .read reader, readers =>
      match readers.indices[reader]? with
      | none => (none, readers)
      | some index =>
          let (reading, index, recording) := readers.recording.next index
          (some reading, ⟨recording, readers.indices.set reader index⟩)
  | .clone reader, readers =>
      (none, { readers with indices := readers.indices ++ readers.indices[reader]?.toList })

def Progress.start : Progress := ⟨0, [0]⟩

/-- A reader is given the entry at its place and goes on to the next one, unless the scanner has to
be asked for it and gives an error. -/
def Lap.serve {transcript : Transcript} (lap : Lap transcript) :
    ReaderRequest → Progress → Option Reading × Progress
  | .read reader, progress =>
      match progress.places[reader]? with
      | none => (none, progress)
      | some place =>
          let places := progress.places.set reader (place + 1)
          if lap.last < progress.taken ∨ place < (transcript.symbols progress.taken).length then
            (some (.ok (lap.entry place)), { progress with places })
          else
            match transcript progress.taken with
            | .ok _ => (some (.ok (lap.entry place)), ⟨progress.taken + 1, places⟩)
            | .error error => (some (.error error), { progress with taken := progress.taken + 1 })
  | .clone reader, progress =>
      (none, { progress with places := progress.places ++ progress.places[reader]?.toList })

namespace Readers

open Scanner

variable {σ : Type} [Scanner σ] {source : σ} {lap : Lap (transcript source)} {progress : Progress}
  {readers : Readers σ}

/-- The readers are at their places: each index is a place with the laps left out. -/
structure Follows (lap : Lap (transcript source)) (progress : Progress) (readers : Readers σ) :
    Prop where
  symbols_eq : readers.recording.symbols.toList = (transcript source).symbols progress.taken
  source_eq : readers.recording.source = (take progress.taken source).2
  replaying_eq : readers.recording.replaying = decide (lap.last < progress.taken)
  indices_eq : readers.indices = progress.places.map (· % lap.size)
  taken_le : progress.taken ≤ lap.last + 1
  place_le : progress.taken ≤ lap.last →
    ∀ place ∈ progress.places, place ≤ ((transcript source).symbols progress.taken).length

theorem follows_ofScanner (lap : Lap (transcript source)) :
    Follows lap .start (ofScanner source) where
  symbols_eq := rfl
  source_eq := rfl
  replaying_eq := (decide_eq_false (Nat.not_lt_zero _)).symm
  indices_eq := by simp [ofScanner, Progress.start]
  taken_le := Nat.zero_le _
  place_le _ place hmem := Nat.le_of_eq (List.mem_singleton.mp hmem)

theorem Follows.clone (hfollows : Follows lap progress readers) (reader : Nat) :
    Follows lap (lap.serve (.clone reader) progress).2 (serve (.clone reader) readers).2 := by
  refine { hfollows with indices_eq := ?_, place_le := ?_ }
  · rw [serve, Lap.serve]
    dsimp only
    rw [hfollows.indices_eq, List.map_append, List.getElem?_map]
    cases progress.places[reader]? <;> rfl
  · intro htaken place hmem
    rcases List.mem_append.mp hmem with hmem | hmem
    · exact hfollows.place_le htaken place hmem
    · exact hfollows.place_le htaken place (List.mem_of_getElem? (Option.mem_toList.mp hmem))

theorem Follows.size_eq (hfollows : Follows lap progress readers) :
    readers.recording.symbols.size = ((transcript source).symbols progress.taken).length := by
  rw [← hfollows.symbols_eq, Array.length_toList]

/-- Only the end of a whole lap is followed by its start. -/
theorem Follows.wraps_eq (hfollows : Follows lap progress readers) {index : Nat}
    (hindex : index < readers.recording.symbols.size) :
    (readers.recording.replaying && index + 1 == readers.recording.symbols.size) =
      decide (index + 1 = lap.size) := by
  rw [hfollows.replaying_eq, hfollows.size_eq]
  rw [hfollows.size_eq] at hindex
  -- Until the end is recorded the recording is shorter than a lap, so no index can reach its end.
  by_cases htaken : lap.last < progress.taken
  · rw [decide_eq_true htaken, Bool.true_and, Nat.le_antisymm hfollows.taken_le htaken]
    exact beq_eq_decide _ _
  · have hlt := lap.length_symbols_lt (Nat.not_lt.mp htaken)
    rw [decide_eq_false htaken, Bool.false_and, decide_eq_false (by omega)]

theorem Follows.mod_lt_size (hfollows : Follows lap progress readers) {place : Nat}
    (hrecorded : lap.last < progress.taken ∨
      place < ((transcript source).symbols progress.taken).length) :
    place % lap.size < readers.recording.symbols.size := by
  rw [hfollows.size_eq]
  rcases hrecorded with htaken | hplace
  · rw [Nat.le_antisymm hfollows.taken_le htaken]
    exact Nat.mod_lt place lap.size_pos
  · exact Nat.lt_of_le_of_lt (Nat.mod_le place lap.size) hplace

/-- A reader that is asked for an entry that is recorded. -/
theorem Follows.replay (hfollows : Follows lap progress readers) {place : Nat} (reader : Nat)
    (hrecorded : lap.last < progress.taken ∨
      place < ((transcript source).symbols progress.taken).length) :
    readers.recording.next (place % lap.size) =
      (.ok (lap.entry place), (place + 1) % lap.size, readers.recording) ∧
    Follows lap { progress with places := progress.places.set reader (place + 1) }
      ⟨readers.recording, readers.indices.set reader ((place + 1) % lap.size)⟩ := by
  have hindex := hfollows.mod_lt_size hrecorded
  have hsymbol : readers.recording.symbols[place % lap.size]? = some (lap.entry place) := by
    rw [← Array.getElem?_toList, hfollows.symbols_eq]
    exact lap.getElem?_symbols hfollows.taken_le (hfollows.size_eq ▸ hindex)
  constructor
  · rw [Recording.next_of_recorded hsymbol, hfollows.wraps_eq hindex, lap.mod_succ]
    simp only [decide_eq_true_eq]
  · refine { hfollows with indices_eq := ?_, place_le := ?_ }
    · rw [hfollows.indices_eq, List.map_set]
    · intro htaken other hmem
      rcases List.mem_or_eq_of_mem_set hmem with hmem | rfl
      · exact hfollows.place_le htaken other hmem
      · exact hrecorded.resolve_left (Nat.not_lt.mpr htaken)

section Learning

variable {place : Nat} (hfollows : Follows lap progress readers)
  (htaken : progress.taken ≤ lap.last)
  (hplace : place = ((transcript source).symbols progress.taken).length)

include hfollows htaken hplace

/-- A reader at the first entry that is not recorded makes the scanner be asked. -/
theorem Follows.unrecorded : place % lap.size = place ∧
    readers.recording.symbols[place % lap.size]? = none ∧
    Scanner.next readers.recording.source =
      (transcript source progress.taken, (take (progress.taken + 1) source).2) := by
  have hmod : place % lap.size = place :=
    Nat.mod_eq_of_lt (hplace ▸ lap.length_symbols_lt htaken)
  refine ⟨hmod, ?_, ?_⟩
  · rw [hmod, Array.getElem?_eq_none_iff, hfollows.size_eq]
    exact Nat.le_of_eq hplace.symm
  · rw [hfollows.source_eq, next_take]

theorem Follows.learn_error {error : Error}
    (hread : transcript source progress.taken = .error error) :
    readers.recording.next (place % lap.size) = (.error error, place % lap.size,
      { readers.recording with source := (take (progress.taken + 1) source).2 }) ∧
    Follows lap { progress with taken := progress.taken + 1 }
      { readers with
        recording :=
          { readers.recording with source := (take (progress.taken + 1) source).2 } } := by
  obtain ⟨hmod, hunrecorded, hnext⟩ := hfollows.unrecorded htaken hplace
  rw [hread] at hnext
  have hsymbols := (transcript source).symbols_succ_of_error hread
  have hlt : progress.taken < lap.last := by
    apply Nat.lt_of_le_of_ne htaken
    intro hlast
    have hend := lap.isEof_last
    rw [← hlast, hread] at hend
    exact absurd hend nofun
  refine ⟨Recording.next_of_error hunrecorded hnext, ?_⟩
  constructor
  case symbols_eq => exact hfollows.symbols_eq.trans hsymbols.symm
  case source_eq => rfl
  case replaying_eq =>
    rw [hfollows.replaying_eq, decide_eq_false (Nat.not_lt.mpr htaken)]
    exact (decide_eq_false (Nat.not_lt.mpr hlt)).symm
  case indices_eq => exact hfollows.indices_eq
  case taken_le => exact Nat.succ_le_succ htaken
  case place_le =>
    intro _ other hmem
    rw [hsymbols]
    exact hfollows.place_le htaken other hmem

theorem Follows.learn_symbol (reader : Nat) {symbol : Symbol}
    (hread : transcript source progress.taken = .ok symbol) :
    ∃ recording : Recording σ,
      readers.recording.next (place % lap.size) =
        (.ok (lap.entry place), (place + 1) % lap.size, recording) ∧
      Follows lap ⟨progress.taken + 1, progress.places.set reader (place + 1)⟩
        ⟨recording, readers.indices.set reader ((place + 1) % lap.size)⟩ := by
  obtain ⟨hmod, hunrecorded, hnext⟩ := hfollows.unrecorded htaken hplace
  rw [hread] at hnext
  have hsymbols := (transcript source).symbols_succ_of_symbol hread
  have hlength : ((transcript source).symbols (progress.taken + 1)).length = place + 1 := by
    rw [hsymbols, List.length_append, ← hplace]
    rfl
  have hend : symbol.isEof = decide (progress.taken = lap.last) := by
    rw [← lap.isEof_eq htaken, hread]
    rfl
  -- The reader that records the end is back at the start: the lap is as long as the recording now.
  have hindex : (if symbol.isEof then 0 else place % lap.size + 1) = (place + 1) % lap.size := by
    rw [hend, hmod]
    by_cases hlast : progress.taken = lap.last
    · have hsize : lap.size = place + 1 := by rw [← hlength, hlast]; rfl
      rw [decide_eq_true hlast, if_pos rfl, hsize, Nat.mod_self]
    · have hlt := lap.length_symbols_lt (Nat.lt_of_le_of_ne htaken hlast)
      rw [decide_eq_false hlast, if_neg nofun, Nat.mod_eq_of_lt (hlength ▸ hlt)]
  have hentry : lap.entry place = symbol := hplace ▸ lap.entry_of_read htaken hread
  refine ⟨_, (Recording.next_of_symbol hunrecorded hnext).trans (by rw [hindex, hentry]), ?_⟩
  constructor
  case symbols_eq => rw [Array.toList_push, hfollows.symbols_eq, hsymbols]
  case source_eq => rfl
  case replaying_eq =>
    rw [hfollows.replaying_eq, hend, ← Bool.decide_or]
    exact decide_eq_decide.mpr (Nat.lt_succ_iff_lt_or_eq.trans (or_congr_right eq_comm)).symm
  case indices_eq => rw [hfollows.indices_eq, List.map_set]
  case taken_le => exact Nat.succ_le_succ htaken
  case place_le =>
    intro _ other hmem
    rw [hlength]
    rcases List.mem_or_eq_of_mem_set hmem with hmem | rfl
    · exact Nat.le_succ_of_le (hplace ▸ hfollows.place_le htaken other hmem)
    · exact Nat.le_refl _

end Learning

theorem Follows.serve (hfollows : Follows lap progress readers) (request : ReaderRequest) :
    (serve request readers).1 = (lap.serve request progress).1 ∧
      Follows lap (lap.serve request progress).2 (serve request readers).2 := by
  cases request with
  | clone reader => exact ⟨rfl, hfollows.clone reader⟩
  | read reader =>
      rw [Readers.serve, Lap.serve]
      dsimp only
      rw [hfollows.indices_eq, List.getElem?_map, ← hfollows.indices_eq]
      cases hplace : progress.places[reader]? with
      | none => exact ⟨rfl, hfollows⟩
      | some place =>
          dsimp only [Option.map_some]
          by_cases hrecorded : lap.last < progress.taken ∨
              place < ((transcript source).symbols progress.taken).length
          · obtain ⟨hnext, hrest⟩ := hfollows.replay reader hrecorded
            rw [if_pos hrecorded, hnext]
            exact ⟨rfl, hrest⟩
          · obtain ⟨htaken, hbeyond⟩ := not_or.mp hrecorded
            have htaken := Nat.not_lt.mp htaken
            have hlast := Nat.le_antisymm
              (hfollows.place_le htaken place (List.mem_of_getElem? hplace)) (Nat.not_lt.mp hbeyond)
            have hstays : readers.indices.set reader (place % lap.size) = readers.indices := by
              have hindex : readers.indices[reader]? = some (place % lap.size) := by
                rw [hfollows.indices_eq, List.getElem?_map, hplace, Option.map_some]
              obtain ⟨hreader, hself⟩ := List.getElem?_eq_some_iff.mp hindex
              rw [← hself, List.set_getElem_self]
            rw [if_neg hrecorded]
            cases hread : transcript source progress.taken with
            | error error =>
                obtain ⟨hnext, hrest⟩ := hfollows.learn_error htaken hlast hread
                rw [hnext]
                dsimp only
                rw [hstays]
                exact ⟨rfl, hrest⟩
            | ok symbol =>
                obtain ⟨recording, hnext, hrest⟩ := hfollows.learn_symbol htaken hlast reader hread
                rw [hnext]
                exact ⟨rfl, hrest⟩

end Readers

/-- The symbols that one of the readers is given in a session. -/
def given (reader : Nat) (requests : List ReaderRequest) (results : List (Option Reading)) :
    List Symbol :=
  (requests.zip results).filterMap fun
    | (.read other, some (.ok symbol)) => if other = reader then some symbol else none
    | _ => none

/-- The errors that the readers are given in a session, whichever they go to. -/
def errorsGiven (results : List (Option Reading)) : List Error :=
  results.filterMap (·.bind Reading.error?)

theorem given_cons (reader : Nat) (request : ReaderRequest) (requests : List ReaderRequest)
    (result : Option Reading) (results : List (Option Reading)) :
    given reader (request :: requests) (result :: results) =
      given reader [request] [result] ++ given reader requests results :=
  List.filterMap_append (l := [(request, result)])

namespace Lap

variable {transcript : Transcript} (lap : Lap transcript) {progress : Progress}

/-- What a request can come to. -/
inductive Served (progress : Progress) : ReaderRequest → Option Reading → Progress → Prop
  | cloned (reader : Nat) : Served progress (.clone reader) none
      { progress with places := progress.places ++ progress.places[reader]?.toList }
  | missing {reader : Nat} (hmissing : progress.places[reader]? = none) :
      Served progress (.read reader) none progress
  | given {reader place taken : Nat} (hplace : progress.places[reader]? = some place)
      (htaken : progress.taken ≤ taken) (hclean : transcript.errors progress.taken taken = []) :
      Served progress (.read reader) (some (.ok (lap.entry place)))
        ⟨taken, progress.places.set reader (place + 1)⟩
  | failed {reader : Nat} {error : Error} (hread : transcript progress.taken = .error error) :
      Served progress (.read reader) (some (.error error))
        { progress with taken := progress.taken + 1 }

theorem served (request : ReaderRequest) (progress : Progress) :
    lap.Served progress request (lap.serve request progress).1 (lap.serve request progress).2 := by
  cases request with
  | clone reader => exact .cloned reader
  | read reader =>
      rw [serve]
      cases hplace : progress.places[reader]? with
      | none => exact .missing hplace
      | some place =>
          dsimp only
          split
          · exact .given hplace (Nat.le_refl _) (transcript.errors_eq_nil (Nat.le_refl _))
          · cases hread : transcript progress.taken with
            | error error => exact .failed hread
            | ok symbol =>
                refine .given hplace (Nat.le_succ _) ?_
                rw [transcript.errors_eq_cons (Nat.lt_succ_self _), hread,
                  transcript.errors_eq_nil (Nat.le_refl _)]
                rfl

theorem given_serve (request : ReaderRequest) {reader place : Nat}
    (hplace : progress.places[reader]? = some place) :
    ∃ k, given reader [request] [(lap.serve request progress).1] =
        (List.range' place k).map lap.entry ∧
      (lap.serve request progress).2.places[reader]? = some (place + k) := by
  have hreader : reader < progress.places.length := (List.getElem?_eq_some_iff.mp hplace).1
  have hserved := lap.served request progress
  rcases hserve : lap.serve request progress with ⟨result, progress'⟩
  rw [hserve] at hserved
  cases hserved with
  | cloned other => exact ⟨0, rfl, (List.getElem?_append_left hreader).trans hplace⟩
  | missing hmissing => exact ⟨0, rfl, hplace⟩
  | failed hread => exact ⟨0, rfl, hplace⟩
  | @given other place' taken hplace' htaken hclean =>
      by_cases hsame : other = reader
      · subst hsame
        cases hplace.symm.trans hplace'
        exact ⟨1, by simp [given], List.getElem?_set_self hreader⟩
      · exact ⟨0, by simp [given, hsame], (List.getElem?_set_ne hsame).trans hplace⟩

theorem errors_serve (request : ReaderRequest) (progress : Progress) :
    progress.taken ≤ (lap.serve request progress).2.taken ∧
      errorsGiven [(lap.serve request progress).1] =
        transcript.errors progress.taken (lap.serve request progress).2.taken := by
  have hserved := lap.served request progress
  rcases hserve : lap.serve request progress with ⟨result, progress'⟩
  rw [hserve] at hserved
  cases hserved with
  | cloned other => exact ⟨Nat.le_refl _, (transcript.errors_eq_nil (Nat.le_refl _)).symm⟩
  | missing hmissing => exact ⟨Nat.le_refl _, (transcript.errors_eq_nil (Nat.le_refl _)).symm⟩
  | given hplace htaken hclean => exact ⟨htaken, hclean.symm⟩
  | failed hread =>
      refine ⟨Nat.le_succ _, ?_⟩
      dsimp only
      rw [transcript.errors_eq_cons (Nat.lt_succ_self _), hread,
        transcript.errors_eq_nil (Nat.le_refl _)]
      rfl

/-- A reader is given consecutive entries, from its place on. -/
theorem given_answers (requests : List ReaderRequest) {reader place : Nat}
    (hplace : progress.places[reader]? = some place) :
    ∃ k, given reader requests (answers lap.serve requests progress).1 =
        (List.range' place k).map lap.entry ∧
      (answers lap.serve requests progress).2.places[reader]? = some (place + k) := by
  induction requests generalizing progress place with
  | nil => exact ⟨0, rfl, hplace⟩
  | cons request requests ih =>
      obtain ⟨k, hfirst, hmoved⟩ := lap.given_serve request hplace
      obtain ⟨l, hrest, hlast⟩ := ih hmoved
      refine ⟨k + l, ?_, ?_⟩
      · simp only [answers]
        rw [given_cons, hfirst, hrest, ← List.map_append, List.range'_append_1]
      · simp only [answers]
        rw [hlast, Nat.add_assoc]

/-- The errors that are given are those of the readings taken meanwhile, in order. -/
theorem errors_answers (requests : List ReaderRequest) (progress : Progress) :
    progress.taken ≤ (answers lap.serve requests progress).2.taken ∧
      errorsGiven (answers lap.serve requests progress).1 =
        transcript.errors progress.taken (answers lap.serve requests progress).2.taken := by
  induction requests generalizing progress with
  | nil => exact ⟨Nat.le_refl _, (transcript.errors_eq_nil (Nat.le_refl _)).symm⟩
  | cons request requests ih =>
      obtain ⟨hfirst, herrors⟩ := lap.errors_serve request progress
      obtain ⟨hrest, herrors'⟩ := ih (lap.serve request progress).2
      refine ⟨Nat.le_trans hfirst hrest, ?_⟩
      simp only [answers]
      rw [← transcript.errors_append hfirst hrest, ← herrors, ← herrors']
      exact List.filterMap_append (l := [_])

end Lap

namespace Readers

open Scanner

variable {σ : Type} [Scanner σ]

/-- However calls of the readers are interleaved, with clones made in between, the answers are those
of `Lap.serve`.  The scanner has been asked for the readings up to some number and not beyond its
first end; the errors given, one by one, are those among these readings.  From any moment on, each
reader is given consecutive entries of the laps, from its place on. -/
theorem readers_go_round {source : σ} (lap : Lap (transcript source))
    (requests : List ReaderRequest) :
    ∃ results readers progress,
      answers serve requests (ofScanner source) = (results, readers) ∧
      answers lap.serve requests .start = (results, progress) ∧
      readers.recording.source = (take progress.taken source).2 ∧
      progress.taken ≤ lap.last + 1 ∧
      errorsGiven results = (transcript source).errors 0 progress.taken ∧
      ∀ before after, requests = before ++ after → ∀ reader place,
        (answers lap.serve before .start).2.places[reader]? = some place →
          ∃ k, given reader after (results.drop before.length) =
              (List.range' place k).map lap.entry ∧
            progress.places[reader]? = some (place + k) := by
  obtain ⟨hresults, hfollows⟩ := answers_alike
    (R := fun readers progress => Follows lap progress readers)
    (fun request _ _ hfollows => hfollows.serve request) requests (follows_ofScanner lap)
  refine ⟨_, _, _, rfl, Prod.ext hresults.symm rfl, hfollows.source_eq, hfollows.taken_le, ?_, ?_⟩
  · rw [hresults]
    exact (lap.errors_answers requests .start).2
  · rintro before after rfl reader place hplace
    have hdrop : (answers serve (before ++ after) (ofScanner source)).1.drop before.length =
        (answers lap.serve after (answers lap.serve before .start).2).1 := by
      rw [hresults, answers_append, List.drop_left' (length_answers lap.serve before .start)]
    rw [hdrop, answers_append]
    exact lap.given_answers after hplace

def stuttering : Playback :=
  ⟨[.ok ⟨.char 'a', none⟩, .error .badEncoding, .ok ⟨.char 'b', none⟩]⟩

def lapOfStuttering : Lap (transcript stuttering) where
  last := 3
  isEof_last := rfl
  isEof_of_lt := by decide

/-- A clone made after one symbol meets the error, stays where it is, and later goes round through
what the first reader has learnt. -/
theorem readers_go_round_stuttering :
    let before : List ReaderRequest := [.read 0, .clone 0]
    let after : List ReaderRequest := [.read 1, .read 0, .read 0, .read 1, .read 1, .read 1]
    ∃ results readers, answers serve (before ++ after) (ofScanner stuttering) = (results, readers) ∧
      errorsGiven results = [.badEncoding] ∧
      readers.recording.source = (take 4 stuttering).2 ∧
      ∃ k, given 1 after (results.drop 2) = (List.range' 1 k).map lapOfStuttering.entry := by
  intro before after
  obtain ⟨results, readers, progress, hserved, hlap, hsource, htaken, herrors, hgiven⟩ :=
    readers_go_round lapOfStuttering (before ++ after)
  have hprogress : progress.taken = 4 := by
    rw [← congrArg (fun outcome => outcome.2.taken) hlap]
    rfl
  rw [hprogress] at hsource herrors
  obtain ⟨k, hentries, -⟩ := hgiven before after rfl 1 1 rfl
  exact ⟨results, readers, hserved, herrors, hsource, k, hentries⟩

end Readers

end Precedence
