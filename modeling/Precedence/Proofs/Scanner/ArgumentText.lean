import Precedence.Proofs.Scanner.Concatenation
import Precedence.Proofs.Scanner.Segmentation
import Precedence.Scanner.Arguments

/-!
# The text of an argument list

An argument list is read without errors: each argument with its own line endings normalized, the
joiner between each two without any, and then the end of the last argument for ever.  The places
count the characters of each piece from 1.
-/

namespace Precedence

open String (utf8EncodeChar)

namespace ArgPosition

/-- Some runes of one argument, the first of them at this position. -/
def numbered (start : ArgPosition) (runes : List Rune) : List Symbol :=
  (runes.zipIdx start.char).map fun (rune, char) =>
    ⟨rune, some (.arg ⟨⟨start.arg, char⟩, ⟨start.arg, char + 1⟩⟩)⟩

/-- The end of an argument that stops at this position. -/
def ending (stop : ArgPosition) : Symbol := ⟨.eof, some (.arg ⟨stop, stop⟩)⟩

variable {start : ArgPosition} {runes : List Rune}

@[simp]
theorem length_numbered : (start.numbered runes).length = runes.length := by
  rw [numbered, List.length_map, List.length_zipIdx]

theorem isEof_of_mem_numbered (hchars : ∀ rune ∈ runes, rune.isSentinel = false) {symbol : Symbol}
    (hmem : symbol ∈ start.numbered runes) : symbol.isEof = false := by
  obtain ⟨⟨rune, char⟩, hrune, rfl⟩ := List.mem_map.mp hmem
  cases rune with
  | char c => rfl
  | _ => exact absurd (hchars _ (List.fst_mem_of_mem_zipIdx hrune)) nofun

end ArgPosition

namespace ArgumentScanner

/-- The runes of an argument.  A line ending that two arguments could make together is none. -/
def runesOf (argument : String) : List Rune :=
  LineStyle.unknown.normalize (argument.toList.map .char)

/-- The runes of a joiner: it has no line endings. -/
def runesOfJoiner (joiner : String) : List Rune :=
  joiner.toList.map fun c => if c = '\r' ∨ c = '\n' then .space else .char c

/-- The symbols of an argument that comes after `argument.2` other arguments. -/
def symbolsOf (argument : String × Nat) : List Symbol :=
  ArgPosition.numbered ⟨argument.2 + 1, 1⟩ (runesOf argument.1)

/-- The end of an argument that comes after `argument.2` other arguments. -/
def endOf (argument : String × Nat) : Symbol :=
  ArgPosition.ending ⟨argument.2 + 1, (runesOf argument.1).length + 1⟩

def gapOf (joiner : String) : List Symbol :=
  ArgPosition.numbered ⟨0, 1⟩ (runesOfJoiner joiner)

/-- The symbols of an argument list. -/
def symbols (args : List String) (joiner : String) : List Symbol :=
  ((args.zipIdx.map symbolsOf).intersperse (gapOf joiner)).flatten

/-- The end of an argument list. -/
def ending (args : List String) : Symbol :=
  match args.getLast? with
  | none => .eof
  | some argument => ArgPosition.ending ⟨args.length, (runesOf argument).length + 1⟩

end ArgumentScanner

theorem toList_loop_eq (bytes : ByteArray) (i : Nat) (read : List UInt8) :
    ByteArray.toList.loop bytes i read = read.reverse ++ bytes.data.toList.drop i := by
  fun_induction ByteArray.toList.loop bytes i read with
  | case1 i read hlt ih =>
      have hlt' : i < bytes.data.toList.length := hlt
      have hget : bytes.get! i = bytes.data.toList[i] := by
        rw [Array.getElem_toList, ← getElem!_pos bytes.data i hlt]
        rfl
      rw [ih, List.drop_eq_getElem_cons hlt', List.reverse_cons, List.append_assoc, hget]
      rfl
  | case2 i read hge =>
      rw [List.drop_eq_nil_of_le (Nat.not_lt.mp hge), List.append_nil]

theorem toList_toUTF8 (s : String) : s.toUTF8.toList = s.toList.flatMap utf8EncodeChar := by
  rw [ByteArray.toList, toList_loop_eq, String.toUTF8_eq_toByteArray, ← String.utf8Encode_toList,
    List.utf8Encode, List.data_toByteArray]
  rfl

/-- The characters of an argument take one number each, and it stops where the last one does. -/
theorem TextOptions.layout_argument (options : TextOptions) {runes : List Rune}
    (hchars : ∀ rune ∈ runes, rune.isSentinel = false) (start stop : ArgPosition) :
    options.layout runes.length (.arg ⟨start, stop⟩) (runes.map .ok) =
        (stop.numbered runes).map .ok ∧
      ∃ start', options.after (.arg ⟨start, stop⟩) (runes.map .ok) =
        .arg ⟨start', ⟨stop.arg, stop.char + runes.length⟩⟩ := by
  induction runes generalizing start stop with
  | nil => exact ⟨rfl, start, rfl⟩
  | cons rune runes ih =>
      obtain ⟨hrune, hrest⟩ := List.forall_mem_cons.mp hchars
      cases rune with
      | char c =>
          obtain ⟨hlayout, start', hafter⟩ := ih hrest stop ⟨stop.arg, stop.char + 1⟩
          have hstop : stop.char + 1 + runes.length = stop.char + (runes.length + 1) := by omega
          rw [hstop] at hafter
          exact ⟨congrArg (_ :: ·) hlayout, start', hafter⟩
      | _ => exact absurd hrune nofun

theorem LineStyle.isSentinel_of_mem_normalize {style : LineStyle} {text : List Char} {rune : Rune}
    (hmem : rune ∈ style.normalize (text.map .char)) : rune.isSentinel = false := by
  rcases mem_normalize hmem with rfl | rfl | hchar
  · rfl
  · rfl
  · obtain ⟨c, -, rfl⟩ := List.mem_map.mp hchar
    rfl

/-- A string is read without errors, whichever argument it is. -/
theorem TextScanner.transcript_argument (options : TextOptions) {s : String} {runes : List Rune}
    (hrunes : options.lineStyle.normalize (s.toList.map .char) = runes) (arg n : Nat) :
    Scanner.transcript (new [.bytes s.toUTF8.toList] (.ofArg arg) options) n =
      ((ArgPosition.numbered ⟨arg, 1⟩ runes).map .ok)[n]?.getD
        (.ok (ArgPosition.ending ⟨arg, runes.length + 1⟩)) := by
  have hchars : ∀ rune ∈ runes, rune.isSentinel = false :=
    fun rune hmem => LineStyle.isSentinel_of_mem_normalize (hrunes ▸ hmem)
  have htape : Tape.ofDeliveries [.bytes s.toUTF8.toList] =
      ⟨s.toList.flatMap utf8EncodeChar, none⟩ := by
    rw [toList_toUTF8]
    exact congrArg (Tape.mk · none) (List.append_nil _)
  obtain ⟨hlayout, start, hafter⟩ := options.layout_argument hchars ⟨arg, 1⟩ ⟨arg, 1⟩
  apply Scanner.transcript_of_take
  intro k
  calc (Scanner.take _ (new [.bytes s.toUTF8.toList] (.ofArg arg) options)).1
      = options.layout (runes.length + k) (.ofArg arg) (runes.map .ok ++ []) := by
        rw [take_new htape, Tape.runes_encodings, LineStyle.results, hrunes, List.length_map,
          ArgPosition.length_numbered]
        rfl
    _ = options.layout runes.length (.ofArg arg) (runes.map .ok) ++
          options.layout k (options.after (.ofArg arg) (runes.map .ok)) [] :=
        options.layout_runes k (.ofArg arg) runes []
    _ = (ArgPosition.numbered ⟨arg, 1⟩ runes).map .ok ++
          List.replicate k (.ok (ArgPosition.ending ⟨arg, runes.length + 1⟩)) := by
        rw [options.layout_nil, Location.ofArg, ArgSpan.ofArg, hlayout, hafter, Nat.add_comm 1]
        rfl

namespace ArgumentPart

open Scanner

variable {recording : Recording TextScanner} {symbols : List Symbol} {last : Symbol}

theorem drains_argument (options : TextOptions) {s : String} {runes : List Rune}
    (hrunes : options.lineStyle.normalize (s.toList.map .char) = runes) (arg : Nat)
    (recording : Recording TextScanner) :
    Drains read (.argument (.new [.bytes s.toUTF8.toList] (.ofArg arg) options)) recording
      ((ArgPosition.numbered ⟨arg, 1⟩ runes).map .ok)
      (ArgPosition.ending ⟨arg, runes.length + 1⟩) recording := by
  refine Drains.of_transcript (fun _ _ => rfl) ?_ rfl
    (TextScanner.transcript_argument options hrunes arg) recording
  intro reading hmem
  obtain ⟨symbol, hsymbol, rfl⟩ := List.mem_map.mp hmem
  refine ArgPosition.isEof_of_mem_numbered (fun rune hrune => ?_) hsymbol
  exact LineStyle.isSentinel_of_mem_normalize (hrunes ▸ hrune)

theorem read_joiner (index : Nat) (recording : Recording TextScanner) :
    read (.joiner index) recording = (((recording.next index).1,
      .joiner (recording.next index).2.1), (recording.next index).2.2) := rfl

theorem read_unrecorded {source rest : TextScanner} {symbol : Symbol}
    (hnext : next source = (.ok symbol, rest)) (known : Array Symbol) :
    read (.joiner known.size) ⟨source, known, false⟩ =
      ((.ok symbol, .joiner (if symbol.isEof then 0 else known.size + 1)),
        ⟨rest, known.push symbol, symbol.isEof⟩) := by
  have hunrecorded : known[known.size]? = none := Array.getElem?_eq_none (Nat.le_refl _)
  rw [read_joiner, Recording.next_of_symbol hunrecorded hnext, Bool.false_or]

/-- The first reader that is read to its end records what it reads. -/
theorem drains_learning (hopen : ∀ symbol ∈ symbols, symbol.isEof = false)
    (hend : last.isEof = true) {source : TextScanner} {known : Array Symbol}
    (htranscript : ∀ n, transcript source n = (symbols.map .ok)[n]?.getD (.ok last)) :
    ∃ recorded : Recording TextScanner,
      Drains read (.joiner known.size) ⟨source, known, false⟩ (symbols.map .ok) last recorded ∧
      recorded.symbols.toList = known.toList ++ (symbols ++ [last]) := by
  induction symbols generalizing source known with
  | nil =>
      have hnext : next source = (.ok last, (next source).2) := Prod.ext (htranscript 0) rfl
      exact ⟨_, .done (read_unrecorded hnext known) hend, Array.toList_push⟩
  | cons symbol symbols ih =>
      obtain ⟨hsymbol, hrest⟩ := List.forall_mem_cons.mp hopen
      have hnext : next source = (.ok symbol, (next source).2) := Prod.ext (htranscript 0) rfl
      have hread := read_unrecorded hnext known
      rw [hsymbol, if_neg Bool.false_ne_true, ← Array.size_push symbol] at hread
      obtain ⟨recorded, hdrains, hsymbols⟩ :=
        @ih hrest _ (known.push symbol) fun n => htranscript (n + 1)
      rw [Array.toList_push, List.append_assoc] at hsymbols
      exact ⟨recorded, .reading hread hsymbol hdrains, hsymbols⟩

theorem read_recorded {before later : List Symbol} {symbol : Symbol}
    (hrecorded : recording.symbols.toList = before ++ symbol :: later) :
    read (.joiner before.length) recording = ((.ok symbol,
      .joiner (if recording.replaying && later.isEmpty then 0 else before.length + 1)),
      recording) := by
  have hsymbol : recording.symbols[before.length]? = some symbol := by
    rw [← Array.getElem?_toList, hrecorded, List.getElem?_append_right (Nat.le_refl _),
      Nat.sub_self]
    rfl
  have hsize : (before.length + 1 == recording.symbols.size) = later.isEmpty := by
    rw [← Array.length_toList, hrecorded, List.length_append]
    cases later <;> simp
  rw [read_joiner, Recording.next_of_recorded hsymbol, hsize]

/-- Every later reader is given what is recorded. -/
theorem drains_replay (hopen : ∀ symbol ∈ symbols, symbol.isEof = false)
    (hend : last.isEof = true) {before : List Symbol}
    (hrecorded : recording.symbols.toList = before ++ (symbols ++ [last])) :
    Drains read (.joiner before.length) recording (symbols.map .ok) last recording := by
  induction symbols generalizing before with
  | nil => exact .done (read_recorded hrecorded) hend
  | cons symbol symbols ih =>
      obtain ⟨hsymbol, hrest⟩ := List.forall_mem_cons.mp hopen
      have hmore : (symbols ++ [last]).isEmpty = false := by simp
      have hread := read_recorded hrecorded
      rw [List.append_eq, hmore, Bool.and_false, if_neg Bool.false_ne_true] at hread
      have hlater : recording.symbols.toList = (before ++ [symbol]) ++ (symbols ++ [last]) := by
        rw [hrecorded, List.append_assoc]
        rfl
      have hdrains := ih hrest hlater
      rw [List.length_append] at hdrains
      exact .reading hread hsymbol hdrains

end ArgumentPart

namespace ArgumentScanner

theorem normalize_joiner (joiner : String) :
    LineStyle.none.normalize (joiner.toList.map .char) = runesOfJoiner joiner := by
  have hconvert : ∀ c, LineStyle.none.convert (.char c) =
      if c = '\r' ∨ c = '\n' then .space else .char c := by
    intro c
    by_cases hnewline : c = '\n'
    · rw [hnewline]
      rfl
    · by_cases hreturn : c = '\r'
      · rw [hreturn]
        rfl
      · rw [if_neg (not_or.mpr ⟨hreturn, hnewline⟩)]
        exact LineStyle.convert_other (mt Rune.char.inj hnewline) (mt Rune.char.inj hreturn) _
  change List.map LineStyle.none.convert (joiner.toList.map .char) = _
  rw [List.map_map]
  exact List.map_congr_left fun c _ => hconvert c

theorem map_intersperse {α β : Type} (f : α → β) (gap : α) (pieces : List α) :
    (pieces.intersperse gap).map f = (pieces.map f).intersperse (f gap) := by
  induction pieces with
  | nil => rfl
  | cons piece pieces ih =>
      cases pieces with
      | nil => rfl
      | cons next pieces => exact congrArg (f piece :: f gap :: ·) ih

/-- The joiner gives the same to its first reader as to every later one. -/
theorem drains_joiner (joiner : String) (options : TextOptions)
    (hstyle : options.lineStyle = .none) :
    ∃ close recorded,
      Drains ArgumentPart.read (.joiner 0)
        (.ofScanner (.new [.bytes joiner.toUTF8.toList] (.ofArg 0) options))
        ((gapOf joiner).map .ok) close recorded ∧
      Drains ArgumentPart.read (.joiner 0) recorded ((gapOf joiner).map .ok) close recorded := by
  have hrunes : options.lineStyle.normalize (joiner.toList.map .char) = runesOfJoiner joiner := by
    rw [hstyle, normalize_joiner]
  have hopen : ∀ symbol ∈ gapOf joiner, symbol.isEof = false :=
    fun symbol => ArgPosition.isEof_of_mem_numbered fun rune hrune =>
      LineStyle.isSentinel_of_mem_normalize (hrunes ▸ hrune)
  obtain ⟨recorded, hlearning, hsymbols⟩ := @ArgumentPart.drains_learning _ _ hopen rfl _ #[]
    (TextScanner.transcript_argument options hrunes 0)
  exact ⟨_, recorded, hlearning, ArgumentPart.drains_replay hopen rfl hsymbols⟩

theorem getLast?_endOf (args : List String) :
    (args.zipIdx.map endOf).getLast?.getD .eof = ending args := by
  rw [List.getLast?_map, List.getLast?_zipIdx, ending]
  cases hlast : args.getLast? with
  | none => rfl
  | some argument =>
      have hpos : 0 < args.length := List.length_pos_of_mem (List.mem_of_getLast? hlast)
      have hlength : 0 + args.length - 1 + 1 = args.length := by omega
      simp only [Option.map_some, Option.getD_some, endOf, hlength]

theorem drainsAll_new (args : List String) (options : ArgumentOptions) :
    DrainsAll ArgumentPart.read (new args options).parts.waiting (new args options).parts.last
      (new args options).joiner ((symbols args options.joiner).map .ok) (ending args) := by
  let text : TextOptions := { onBadEncoding := options.onBadEncoding }
  obtain ⟨close, recorded, hjoiner⟩ :=
    drains_joiner options.joiner { text with lineStyle := .none } rfl
  have hparts : ∀ argument ∈ args.zipIdx, ∀ recording, Drains ArgumentPart.read
      (.argument (.new [.bytes argument.1.toUTF8.toList] (.ofArg (argument.2 + 1)) text)) recording
      ((symbolsOf argument).map .ok) (endOf argument) recording :=
    fun argument _ => ArgumentPart.drains_argument text rfl (argument.2 + 1)
  have hall := DrainsAll.intersperse args.zipIdx hparts ⟨recorded, hjoiner⟩ .eof
  have hsymbols : (symbols args options.joiner).map Except.ok =
      ((args.zipIdx.map fun argument => (symbolsOf argument).map Except.ok).intersperse
        ((gapOf options.joiner).map (.ok : Symbol → Reading))).flatten := by
    rw [symbols, List.map_flatten, map_intersperse, List.map_map]
    rfl
  rw [hsymbols, ← getLast?_endOf]
  exact hall

theorem transcript_of_drainsAll {scanner : ArgumentScanner} {readings : List Reading}
    {last : Symbol} (hdrains : DrainsAll ArgumentPart.read scanner.parts.waiting
      scanner.parts.last scanner.joiner readings last) (n : Nat) :
    Scanner.transcript scanner n = readings[n]?.getD (.ok last) := by
  induction n generalizing scanner readings with
  | zero =>
      obtain ⟨chain, joiner, hread, -⟩ := hdrains.readFrom scanner.parts.spent
      have hfirst : Scanner.transcript scanner 0 = readings.headD (.ok last) :=
        congrArg (·.1.1) hread
      rw [hfirst]
      cases readings <;> rfl
  | succ n ih =>
      obtain ⟨chain, joiner, hread, hrest⟩ := hdrains.readFrom scanner.parts.spent
      have hnext : (Scanner.next scanner).2 = ⟨joiner, chain⟩ :=
        congrArg (fun answer => ArgumentScanner.mk answer.2 answer.1.2) hread
      calc Scanner.transcript scanner (n + 1)
          = Scanner.transcript (Scanner.next scanner).2 n := rfl
        _ = readings.tail[n]?.getD (.ok last) := by rw [hnext]; exact ih hrest
        _ = readings[n + 1]?.getD (.ok last) := by rw [List.getElem?_tail]

/-- The readings of an argument list, whatever the arguments and the joiner are. -/
theorem transcript_new (args : List String) (options : ArgumentOptions) (n : Nat) :
    Scanner.transcript (new args options) n =
      .ok ((symbols args options.joiner)[n]?.getD (ending args)) := by
  rw [transcript_of_drainsAll (drainsAll_new args options), List.getElem?_map]
  cases (symbols args options.joiner)[n]? <;> rfl

end ArgumentScanner

end Precedence
