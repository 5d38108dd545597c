import Precedence.Proofs.Scanner.Concatenation
import Precedence.Proofs.Session

/-!
# Scanners read in turn

A chain may be read and lengthened in any order.  What has been read of each of its scanners is
told by a number of readings, its share.  A scanner gets a share only after all scanners in front of
it have given an end, and its share stops at its own end; an error is a reading like any other.  The
chain gives these readings one by one, leaves the ends out, and gives an end itself only when no
scanner has anything else to give.
-/

namespace Precedence

open Scanner

variable {σ : Type}

/-- The readings that are no ends. -/
def withoutEnds (readings : List Reading) : List Reading :=
  readings.filter fun reading => !reading.isEof

theorem withoutEnds_append (before after : List Reading) :
    withoutEnds (before ++ after) = withoutEnds before ++ withoutEnds after :=
  List.filter_append ..

theorem withoutEnds_of_end {reading : Reading} (hend : reading.isEof = true) :
    withoutEnds [reading] = [] :=
  List.filter_cons_of_neg (by simp [hend])

theorem Reading.eq_ok_of_isEof {reading : Reading} (hend : reading.isEof = true) :
    ∃ symbol, reading = .ok symbol ∧ symbol.isEof = true := by
  cases reading with
  | ok symbol => exact ⟨symbol, rfl, hend⟩
  | error error => cases hend

/-- Readings under the number of the scanner that gave them. -/
abbrev ReadingLog := List (Nat × Reading)

/-- How many readings have been taken of a scanner. -/
structure Share (σ : Type) where
  scanner : σ
  count : Nat

namespace Share

variable [Scanner σ]

def readings (share : Share σ) : List Reading := (transcript share.scanner).slice 0 share.count

def ended (share : Share σ) : Bool := (transcript share.scanner).ended share.count

/-- What the scanner gives next, which is its end if it has given that before. -/
def upcoming (share : Share σ) : Reading := ((transcript share.scanner).readAt share.count).1

/-- The scanner as its readings so far have left it. -/
def rest (share : Share σ) : σ := (take share.count share.scanner).2

def more (share : Share σ) : Share σ := { share with count := share.count + 1 }

/-- Whose readings they are is told by the places of the shares. -/
def logFrom (first : Nat) (shares : List (Share σ)) : ReadingLog :=
  (shares.zipIdx first).flatMap fun (share, i) => share.readings.map (i, ·)

/-- Each scanner has been read to its end at most, and only after those in front of it. -/
structure InTurn (shares : List (Share σ)) : Prop where
  unended : ∀ share ∈ shares, ∀ earlier < share.count,
    (transcript share.scanner).ended earlier = false
  in_turn : shares.Pairwise fun share later => 0 < later.count → share.ended = true

end Share

namespace Chain

/-- What is asked of a chain. -/
inductive Request (σ : Type)
  | next
  | push (scanner : σ)

def Request.scanner? : Request σ → Option σ
  | .next => none
  | .push scanner => some scanner

variable [Scanner σ]

def serve : Request σ → Chain σ → Option Reading × Chain σ
  | .next, chain => (some chain.next.1, chain.next.2)
  | .push scanner, chain => (none, chain.push scanner)

/-- Reads a scanner that has a number, and logs the reading under that number. -/
def note (part : Nat × σ) : StateM ReadingLog (Reading × Nat × σ) := fun log =>
  let (reading, scanner) := Scanner.next part.2
  ((reading, part.1, scanner), log ++ [(part.1, reading)])

/-- Serves as `serve` does, and logs what is read of which scanner. -/
def serveNoting : Request σ → Chain (Nat × σ) × ReadingLog →
    Option Reading × Chain (Nat × σ) × ReadingLog
  | .next, (chain, log) =>
      let ((reading, chain), log) := (chain.readWith note).run log
      (some reading, chain, log)
  | .push scanner, (chain, log) => (none, chain.push (chain.size, scanner), log)

/-- The scanners by their places in the chain. -/
def ofNumbered (scanners : List σ) : Chain (Nat × σ) :=
  ofList (scanners.zipIdx.map fun (scanner, i) => (i, scanner))

end Chain

namespace Share

variable [Scanner σ]

theorem next_rest (share : Share σ) :
    next share.rest = (transcript share.scanner share.count, share.more.rest) :=
  next_take share.scanner share.count

theorem readings_more (share : Share σ) :
    share.more.readings = share.readings ++ [transcript share.scanner share.count] :=
  Transcript.slice_succ _ (Nat.zero_le _)

theorem readings_unread {share : Share σ} (hunread : share.count = 0) : share.readings = [] :=
  Transcript.slice_eq_nil _ (Nat.le_of_eq hunread)

theorem upcoming_of_open {share : Share σ} (hopen : share.ended = false) :
    share.upcoming = transcript share.scanner share.count := by
  rw [ended] at hopen
  rw [upcoming, Transcript.readAt, hopen]
  rfl

theorem upcoming_of_ended {share : Share σ} (hended : share.ended = true) :
    share.upcoming = transcript share.scanner (share.count - 1) := by
  rw [ended] at hended
  rw [upcoming, Transcript.readAt, hended]
  rfl

theorem isEof_upcoming {share : Share σ} (hended : share.ended = true) :
    share.upcoming.isEof = true := by
  rw [upcoming_of_ended hended]
  rw [ended] at hended
  cases hcount : share.count with
  | zero => rw [hcount] at hended; cases hended
  | succ count => rw [hcount] at hended; exact hended

/-- An end that has been read is given again. -/
theorem upcoming_more {share : Share σ} (hopen : share.ended = false)
    (hend : (transcript share.scanner share.count).isEof = true) :
    share.more.upcoming = share.upcoming := by
  have hended : share.more.ended = true := hend
  rw [upcoming_of_ended hended, upcoming_of_open hopen]
  rfl

theorem logFrom_append (first : Nat) (shares later : List (Share σ)) :
    logFrom first (shares ++ later) =
      logFrom first shares ++ logFrom (first + shares.length) later := by
  rw [logFrom, List.zipIdx_append, List.flatMap_append]
  rfl

theorem logFrom_cons (first : Nat) (share : Share σ) (later : List (Share σ)) :
    logFrom first (share :: later) =
      share.readings.map (first, ·) ++ logFrom (first + 1) later := by
  rw [logFrom, List.zipIdx_cons, List.flatMap_cons]
  rfl

theorem logFrom_unread {later : List (Share σ)} (hunread : ∀ share ∈ later, share.count = 0)
    (first : Nat) : logFrom first later = [] := by
  induction later generalizing first with
  | nil => rfl
  | cons share later ih =>
      obtain ⟨hshare, hlater⟩ := List.forall_mem_cons.mp hunread
      rw [logFrom_cons, readings_unread hshare, List.map_nil, List.nil_append, ih hlater]

theorem map_snd_logFrom (first : Nat) (shares : List (Share σ)) :
    (logFrom first shares).map Prod.snd = shares.flatMap readings := by
  induction shares generalizing first with
  | nil => rfl
  | cons share later ih =>
      rw [logFrom_cons, List.map_append, List.map_map, ih, List.flatMap_cons]
      exact congrArg (· ++ _) (List.map_id _)

/-- One more reading of a scanner is logged last if none in later scanners has been. -/
theorem logFrom_more (shares : List (Share σ)) (share : Share σ) {later : List (Share σ)}
    (hunread : ∀ share ∈ later, share.count = 0) :
    logFrom 0 (shares ++ share.more :: later) = logFrom 0 (shares ++ share :: later) ++
      [(shares.length, transcript share.scanner share.count)] := by
  simp only [logFrom_append, logFrom_cons, logFrom_unread hunread, readings_more, List.map_append,
    List.append_nil, List.append_assoc, Nat.zero_add]
  rfl

end Share

namespace Chain

variable [Scanner σ]

/-- The scanners that are waiting in a chain, by their places. -/
def waitingFrom (first : Nat) (shares : List (Share σ)) : List (Nat × σ) :=
  (shares.zipIdx first).map fun (share, i) => (i, share.rest)

/-- The scanners of a chain have these shares; those that are `spent` have given their ends, and of
the others only the first one may have been read. -/
structure Tallies (spent waiting : List (Share σ)) (chain : Chain (Nat × σ)) (log : ReadingLog) :
    Prop where
  spent_eq : chain.spent = spent.length
  waiting_eq : chain.waiting = waitingFrom spent.length waiting
  last_eq : .ok chain.last = (spent.getLast?.map Share.upcoming).getD (.ok .eof)
  log_eq : log = Share.logFrom 0 (spent ++ waiting)
  ended : ∀ share ∈ spent, share.ended = true
  opened : ∀ share ∈ waiting, share.ended = false
  unread : ∀ share ∈ waiting.tail, share.count = 0
  unended : ∀ share ∈ spent ++ waiting, ∀ earlier < share.count,
    (transcript share.scanner).ended earlier = false

theorem waitingFrom_cons (first : Nat) (share : Share σ) (later : List (Share σ)) :
    waitingFrom first (share :: later) = (first, share.rest) :: waitingFrom (first + 1) later := by
  rw [waitingFrom, List.zipIdx_cons, List.map_cons]
  rfl

theorem note_rest (first : Nat) (share : Share σ) (log : ReadingLog) :
    note (first, share.rest) log =
      ((transcript share.scanner share.count, first, share.more.rest),
        log ++ [(first, transcript share.scanner share.count)]) := by
  simp only [note, Share.next_rest]

theorem waitingFrom_concat (first : Nat) (waiting : List (Share σ)) (scanner : σ) :
    waitingFrom first (waiting ++ [⟨scanner, 0⟩]) =
      waitingFrom first waiting ++ [(first + waiting.length, scanner)] := by
  rw [waitingFrom, List.zipIdx_append, List.map_append]
  rfl

/-- What a chain gives if its scanners would give these readings next. -/
def foremost (upcoming : List Reading) : Reading :=
  (upcoming.find? fun reading => !reading.isEof).getD (upcoming.getLast?.getD (.ok .eof))

omit [Scanner σ] in
theorem isEof_foremost {upcoming : List Reading} :
    (foremost upcoming).isEof = true ↔ ∀ reading ∈ upcoming, reading.isEof = true := by
  rw [foremost]
  cases hfind : upcoming.find? fun reading => !reading.isEof with
  | none =>
      have hends : ∀ reading ∈ upcoming, reading.isEof = true := by
        simpa using List.find?_eq_none.mp hfind
      refine ⟨fun _ => hends, fun _ => ?_⟩
      cases hlast : upcoming.getLast? with
      | none => rfl
      | some reading => exact hends reading (List.mem_of_getLast? hlast)
  | some reading =>
      have hopen : reading.isEof = false := by simpa using List.find?_some hfind
      exact ⟨fun hend => absurd (hopen.symm.trans hend) nofun,
        fun hends => hends reading (List.mem_of_find?_eq_some hfind)⟩

theorem foremost_of_ends {upcoming : List Reading}
    (hends : ∀ reading ∈ upcoming, reading.isEof = true) :
    foremost upcoming = upcoming.getLast?.getD (.ok .eof) := by
  have hfind : (upcoming.find? fun reading => !reading.isEof) = none :=
    List.find?_eq_none.mpr (by simpa using hends)
  rw [foremost, hfind, Option.getD_none]

theorem foremost_of_open {before later : List Reading} {reading : Reading}
    (hends : ∀ reading ∈ before, reading.isEof = true) (hopen : reading.isEof = false) :
    foremost (before ++ reading :: later) = reading := by
  have hfind : (before.find? fun reading => !reading.isEof) = none :=
    List.find?_eq_none.mpr (by simpa using hends)
  rw [foremost, List.find?_append, hfind, List.find?_cons_of_pos (by simp [hopen])]
  rfl

section Steps

variable {spent waiting later : List (Share σ)} {share : Share σ} {chain : Chain (Nat × σ)}
  {log : ReadingLog}

theorem Tallies.inTurn (htallies : Tallies spent waiting chain log) :
    Share.InTurn (spent ++ waiting) where
  unended := htallies.unended
  in_turn := by
    have hunread := htallies.unread
    refine List.pairwise_append.mpr ⟨?_, ?_, fun before hmem _ _ _ => htallies.ended before hmem⟩
    · exact List.pairwise_of_forall_mem_list fun before hmem _ _ _ => htallies.ended before hmem
    · cases waiting with
      | nil => exact .nil
      | cons first later =>
          have hzero : ∀ before : Share σ, ∀ after ∈ later, 0 < after.count → before.ended = true :=
            fun _ after hmem hpos => absurd (hunread after hmem) (Nat.ne_of_gt hpos)
          exact List.pairwise_cons.mpr ⟨hzero first,
            List.pairwise_of_forall_mem_list fun before _ after hmem => hzero before after hmem⟩

theorem Tallies.upcoming_spent (htallies : Tallies spent waiting chain log) :
    ∀ reading ∈ spent.map Share.upcoming, reading.isEof = true := by
  intro reading hmem
  obtain ⟨share, hshare, rfl⟩ := List.mem_map.mp hmem
  exact Share.isEof_upcoming (htallies.ended share hshare)

theorem Tallies.unended_more (htallies : Tallies spent (share :: later) chain log) :
    ∀ other ∈ spent ++ share.more :: later, ∀ earlier < other.count,
      (transcript other.scanner).ended earlier = false := by
  obtain ⟨hspent, hwaiting⟩ := List.forall_mem_append.mp htallies.unended
  obtain ⟨hshare, hlater⟩ := List.forall_mem_cons.mp hwaiting
  refine List.forall_mem_append.mpr ⟨hspent, List.forall_mem_cons.mpr ⟨?_, hlater⟩⟩
  intro earlier hlt
  rcases Nat.lt_succ_iff_lt_or_eq.mp hlt with hbefore | rfl
  · exact hshare earlier hbefore
  · exact htallies.opened share List.mem_cons_self

theorem Tallies.log_more (htallies : Tallies spent (share :: later) chain log) :
    log ++ [(spent.length, transcript share.scanner share.count)] =
      Share.logFrom 0 (spent ++ share.more :: later) := by
  have hunread : ∀ other ∈ later, other.count = 0 := htallies.unread
  rw [Share.logFrom_more spent share hunread, htallies.log_eq]

/-- A scanner that gives its end is spent, and the next one is to be read. -/
theorem Tallies.spend (htallies : Tallies spent (share :: later) chain log) {symbol : Symbol}
    (hreading : transcript share.scanner share.count = .ok symbol) (hend : symbol.isEof = true) :
    Tallies (spent ++ [share.more]) later
      ⟨spent.length + 1, waitingFrom (spent.length + 1) later, symbol⟩
      (log ++ [(spent.length, .ok symbol)]) := by
  have hopen := htallies.opened share List.mem_cons_self
  have hended : (transcript share.scanner share.count).isEof = true := hreading ▸ hend
  have hlength : (spent ++ [share.more]).length = spent.length + 1 := List.length_append
  have hshares : spent ++ [share.more] ++ later = spent ++ share.more :: later := by simp
  constructor
  case spent_eq => exact hlength.symm
  case waiting_eq => rw [hlength]
  case last_eq =>
    rw [List.getLast?_concat, Option.map_some, Option.getD_some, Share.upcoming_more hopen hended,
      Share.upcoming_of_open hopen, hreading]
  case log_eq => rw [hshares, ← htallies.log_more, hreading]
  case ended =>
    exact List.forall_mem_append.mpr ⟨htallies.ended, List.forall_mem_singleton.mpr hended⟩
  case opened => exact (List.forall_mem_cons.mp htallies.opened).2
  case unread => exact fun other hmem => htallies.unread other (List.mem_of_mem_tail hmem)
  case unended =>
    rw [hshares]
    exact htallies.unended_more

/-- A scanner that gives anything else stays the one to be read. -/
theorem Tallies.keep (htallies : Tallies spent (share :: later) chain log)
    (hopen : (transcript share.scanner share.count).isEof = false) :
    Tallies spent (share.more :: later)
      ⟨spent.length, waitingFrom spent.length (share.more :: later), chain.last⟩
      (log ++ [(spent.length, transcript share.scanner share.count)]) where
  spent_eq := rfl
  waiting_eq := rfl
  last_eq := htallies.last_eq
  log_eq := htallies.log_more
  ended := htallies.ended
  opened := List.forall_mem_cons.mpr ⟨hopen, (List.forall_mem_cons.mp htallies.opened).2⟩
  unread := htallies.unread
  unended := htallies.unended_more

/-- A scanner that is pushed waits behind all others. -/
theorem Tallies.push (htallies : Tallies spent waiting chain log) (scanner : σ) :
    Tallies spent (waiting ++ [⟨scanner, 0⟩]) (chain.push (chain.size, scanner)) log where
  spent_eq := htallies.spent_eq
  waiting_eq := by
    have hsize : chain.size = spent.length + waiting.length := by
      rw [size, htallies.spent_eq, htallies.waiting_eq, waitingFrom, List.length_map,
        List.length_zipIdx]
    rw [waitingFrom_concat, ← hsize, ← htallies.waiting_eq]
    rfl
  last_eq := htallies.last_eq
  log_eq := by
    rw [← List.append_assoc, Share.logFrom_append, ← htallies.log_eq,
      Share.logFrom_unread (List.forall_mem_singleton.mpr rfl), List.append_nil]
  ended := htallies.ended
  opened := List.forall_mem_append.mpr ⟨htallies.opened, List.forall_mem_singleton.mpr rfl⟩
  unread := by
    have hunread := htallies.unread
    cases waiting with
    | nil => exact List.forall_mem_nil _
    | cons first later =>
        exact List.forall_mem_append.mpr ⟨hunread, List.forall_mem_singleton.mpr rfl⟩
  unended := by
    rw [← List.append_assoc]
    exact List.forall_mem_append.mpr ⟨htallies.unended,
      List.forall_mem_singleton.mpr fun earlier hlt => absurd hlt (Nat.not_lt_zero earlier)⟩

/-- One call takes the foremost reading, and passes over the ends before it. -/
theorem Tallies.next (htallies : Tallies spent waiting chain log) :
    ∃ chain' log' spent' waiting',
      (chain.readWith note).run log =
        ((foremost ((spent ++ waiting).map Share.upcoming), chain'), log') ∧
      Tallies spent' waiting' chain' log' ∧
      (spent' ++ waiting').map Share.scanner = (spent ++ waiting).map Share.scanner ∧
      withoutEnds (log'.map Prod.snd) = withoutEnds (log.map Prod.snd) ++
        withoutEnds [foremost ((spent ++ waiting).map Share.upcoming)] := by
  rw [readWith, htallies.spent_eq, htallies.waiting_eq]
  induction waiting generalizing spent chain log with
  | nil =>
      have hends := htallies.upcoming_spent
      have hlast : foremost ((spent ++ []).map Share.upcoming) = .ok chain.last := by
        rw [List.append_nil, foremost_of_ends hends, htallies.last_eq, List.getLast?_map]
      have hend : (foremost ((spent ++ []).map Share.upcoming)).isEof = true :=
        isEof_foremost.mpr (by rwa [List.append_nil])
      refine ⟨⟨spent.length, [], chain.last⟩, log, spent, [], ?_,
        { htallies with spent_eq := rfl, waiting_eq := rfl }, rfl, ?_⟩
      · rw [hlast]
        rfl
      · rw [withoutEnds_of_end hend, List.append_nil]
  | cons share later ih =>
      have hopen := htallies.opened share List.mem_cons_self
      have hread := note_rest spent.length share log
      cases hend : (transcript share.scanner share.count).isEof with
      | true =>
          obtain ⟨symbol, hreading, hsymbol⟩ := Reading.eq_ok_of_isEof hend
          obtain ⟨chain', log', spent', waiting', hrun, htallies', hscanners, hlog⟩ :=
            ih (htallies.spend hreading hsymbol)
          have hupcoming : (spent ++ [share.more] ++ later).map Share.upcoming =
              (spent ++ share :: later).map Share.upcoming := by
            simp [Share.upcoming_more hopen hend]
          rw [hreading] at hread
          rw [hupcoming] at hrun hlog
          rw [List.length_append] at hrun
          refine ⟨chain', log', spent', waiting', ?_, htallies', ?_, ?_⟩
          · rw [waitingFrom_cons]
            exact (readFrom_of_end hread hsymbol).trans hrun
          · rw [hscanners]
            simp [Share.more]
          · rw [hlog, List.map_append, withoutEnds_append, List.map_singleton, ← hreading,
              withoutEnds_of_end hend, List.append_nil]
      | false =>
          have hforemost : foremost ((spent ++ share :: later).map Share.upcoming) =
              transcript share.scanner share.count := by
            rw [List.map_append, List.map_cons, Share.upcoming_of_open hopen]
            exact foremost_of_open htallies.upcoming_spent hend
          refine ⟨_, _, spent, share.more :: later, ?_, htallies.keep hend, ?_, ?_⟩
          · rw [waitingFrom_cons, hforemost]
            exact readFrom_of_open hread hend
          · simp [Share.more]
          · rw [hforemost, List.map_append, withoutEnds_append]
            rfl

/-- A session takes the foremost reading at each call, and leaves the ends out of the log. -/
theorem Tallies.answers (htallies : Tallies spent waiting chain log)
    (requests : List (Request σ)) :
    ∃ results chain' log' spent' waiting',
      Precedence.answers serveNoting requests (chain, log) = (results, chain', log') ∧
      Tallies spent' waiting' chain' log' ∧
      (spent' ++ waiting').map Share.scanner =
        (spent ++ waiting).map Share.scanner ++ requests.filterMap Request.scanner? ∧
      withoutEnds (log'.map Prod.snd) =
        withoutEnds (log.map Prod.snd) ++ withoutEnds results.reduceOption := by
  induction requests generalizing spent waiting chain log with
  | nil =>
      refine ⟨[], chain, log, spent, waiting, rfl, htallies, ?_, ?_⟩
      · simp
      · exact (List.append_nil _).symm
  | cons request requests ih =>
      cases request with
      | next =>
          obtain ⟨chain₁, log₁, spent₁, waiting₁, hrun, htallies₁, hscanners₁, hlog₁⟩ :=
            htallies.next
          obtain ⟨results, chain', log', spent', waiting', hanswers, htallies', hscanners, hlog⟩ :=
            ih htallies₁
          refine ⟨some (foremost ((spent ++ waiting).map Share.upcoming)) :: results, chain', log',
            spent', waiting', ?_, htallies', ?_, ?_⟩
          · simp only [Precedence.answers, serveNoting, hrun, hanswers]
          · rw [hscanners, hscanners₁]
            rfl
          · rw [hlog, hlog₁, List.append_assoc, ← withoutEnds_append]
            rfl
      | push scanner =>
          obtain ⟨results, chain', log', spent', waiting', hanswers, htallies', hscanners, hlog⟩ :=
            ih (htallies.push scanner)
          refine ⟨none :: results, chain', log', spent', waiting', ?_, htallies', ?_, ?_⟩
          · simp only [Precedence.answers, serveNoting, hanswers]
          · rw [hscanners, ← List.append_assoc, List.map_append, List.append_assoc]
            rfl
          · exact hlog

end Steps

/-- Nothing of a chain has been read at first. -/
theorem tallies_ofNumbered (scanners : List σ) :
    Tallies [] (scanners.map fun scanner => ⟨scanner, 0⟩) (ofNumbered scanners) [] := by
  have hunread : ∀ share ∈ scanners.map fun scanner => (⟨scanner, 0⟩ : Share σ),
      share.count = 0 := by
    intro share hmem
    obtain ⟨scanner, -, rfl⟩ := List.mem_map.mp hmem
    rfl
  constructor
  case spent_eq => rfl
  case waiting_eq =>
    rw [waitingFrom, List.zipIdx_map, List.map_map]
    rfl
  case last_eq => rfl
  case log_eq => exact (Share.logFrom_unread hunread 0).symm
  case ended => exact List.forall_mem_nil _
  case opened =>
    intro share hmem
    rw [Share.ended, hunread share hmem]
    rfl
  case unread => exact fun share hmem => hunread share (List.mem_of_mem_tail hmem)
  case unended =>
    intro share hmem earlier hlt
    rw [hunread share hmem] at hlt
    exact absurd hlt (Nat.not_lt_zero earlier)

/-- A note does not change what is read. -/
theorem readFrom_note (parts : List (Nat × σ)) (spent : Nat) (last : Symbol) (log : ReadingLog) :
    Id.run (readFrom (fun scanner => pure (Scanner.next scanner)) spent last
        (parts.map Prod.snd)) =
      ((readFrom note spent last parts log).1.1,
        (readFrom note spent last parts log).1.2.map Prod.snd) := by
  induction parts generalizing spent last log with
  | nil => rfl
  | cons part parts ih =>
      obtain ⟨number, scanner⟩ := part
      obtain ⟨reading, rest, hnext⟩ : ∃ reading rest, Scanner.next scanner = (reading, rest) :=
        ⟨_, _, rfl⟩
      have hread : note (number, scanner) log =
          ((reading, number, rest), log ++ [(number, reading)]) := by
        simp only [note, hnext]
      cases hend : reading.isEof with
      | true =>
          obtain ⟨symbol, rfl, hsymbol⟩ := Reading.eq_ok_of_isEof hend
          rw [readFrom_of_end hread hsymbol, ← ih]
          simp only [List.map_cons, readFrom, hnext, pure_bind, hsymbol]
          rfl
      | false =>
          rw [readFrom_of_open hread hend]
          simp only [List.map_cons, readFrom, hnext, pure_bind]
          cases reading with
          | error error => rfl
          | ok symbol =>
              have hsymbol : symbol.isEof = false := hend
              simp only [hsymbol]
              rfl

/-- Whether or not notes are taken, a session of a chain goes the same way. -/
theorem answers_serveNoting (requests : List (Request σ)) (chain : Chain (Nat × σ))
    (log : ReadingLog) :
    answers serve requests (chain.map Prod.snd) =
      ((answers serveNoting requests (chain, log)).1,
        (answers serveNoting requests (chain, log)).2.1.map Prod.snd) := by
  have hserve : ∀ request (plain : Chain σ) (noting : Chain (Nat × σ) × ReadingLog),
      plain = noting.1.map Prod.snd →
      (serve request plain).1 = (serveNoting request noting).1 ∧
        (serve request plain).2 = (serveNoting request noting).2.1.map Prod.snd := by
    rintro request _ ⟨chain, log⟩ rfl
    cases request with
    | next =>
        have hread := readFrom_note chain.waiting chain.spent chain.last log
        exact ⟨congrArg some (congrArg Prod.fst hread), congrArg Prod.snd hread⟩
    | push scanner =>
        refine ⟨rfl, ?_⟩
        simp only [serve, serveNoting, push, Chain.map, List.map_append]
        rfl
  obtain ⟨hresults, hchain⟩ := answers_alike hserve requests (t := (chain, log)) rfl
  exact Prod.ext hresults hchain

omit [Scanner σ] in
theorem map_ofNumbered (scanners : List σ) :
    (ofNumbered scanners).map Prod.snd = ofList scanners := by
  simp only [ofNumbered, ofList, Chain.map, List.map_map]
  exact congrArg (Chain.mk 0 · .eof) (List.zipIdx_map_fst 0 scanners)

/-- Whatever is asked of a chain, the log of what has been read of its scanners is their shares,
one after the other: a scanner is read only after those in front of it have given their ends, and
not after its own.  What the chain has given is the same, but for the ends.  It gives an end next if
all its scanners do, and then that of the last one, and otherwise the first reading that is none. -/
theorem readings_in_turn (scanners : List σ) (requests : List (Request σ)) :
    ∃ results chain log shares,
      answers serve requests (ofList scanners) = (results, chain.map Prod.snd) ∧
      answers serveNoting requests (ofNumbered scanners, []) = (results, chain, log) ∧
      shares.map Share.scanner = scanners ++ requests.filterMap Request.scanner? ∧
      Share.InTurn shares ∧
      log = Share.logFrom 0 shares ∧
      withoutEnds results.reduceOption = withoutEnds (shares.flatMap Share.readings) ∧
      (chain.map Prod.snd).next.1 = foremost (shares.map Share.upcoming) ∧
      ((chain.map Prod.snd).next.1.isEof = true ↔
        ∀ share ∈ shares, share.upcoming.isEof = true) ∧
      ((chain.map Prod.snd).next.1.isEof = true →
        (chain.map Prod.snd).next.1 = (shares.getLast?.map Share.upcoming).getD (.ok .eof)) := by
  obtain ⟨results, chain, log, spent, waiting, hanswers, htallies, hscanners, hlog⟩ :=
    (tallies_ofNumbered scanners).answers requests
  obtain ⟨_, _, _, _, hread, -⟩ := htallies.next
  have hplain := answers_serveNoting requests (ofNumbered scanners) []
  have hnext : (chain.map Prod.snd).next.1 = foremost ((spent ++ waiting).map Share.upcoming) :=
    (congrArg Prod.fst (readFrom_note chain.waiting chain.spent chain.last log)).trans
      (congrArg (·.1.1) hread)
  rw [map_ofNumbered, hanswers] at hplain
  rw [htallies.log_eq, Share.map_snd_logFrom] at hlog
  refine ⟨results, chain, log, spent ++ waiting, hplain, hanswers, ?_, htallies.inTurn,
    htallies.log_eq, hlog.symm, hnext, ?_, ?_⟩
  · rw [hscanners, List.nil_append, List.map_map]
    exact congrArg (· ++ _) (List.map_id _)
  · rw [hnext, isEof_foremost, List.forall_mem_map]
  · rw [hnext, isEof_foremost]
    intro hends
    rw [foremost_of_ends hends, List.getLast?_map]

end Chain

end Precedence
