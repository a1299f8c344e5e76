import FareGate.Proofs.Machine.Run
import Mathlib.Data.List.DropRight
import Mathlib.Data.List.TakeDrop

/-! # The path on record is the end of the way taken

  A history shows a path of states. Of the oldest record it takes the state
  before, and of every record the state after; the other states before are not
  looked at. The path is nevertheless the way that the machine has really taken:

  * **Way** (`stops`): the state in which the machine was set up or its records
    were dropped, then the state after each input completed since.
  * **Moves** (`moves`): from one state of the way to the next. Those on record
    are the newest ones of the way, whatever was evicted, dropped or broken off.
  * So the path has one state more than there are records, or none at all, and
    is the end of the way. -/

namespace FareGate

def Command.clears {σ : Type} : Command σ → Bool
  | input _ _ => false
  | clearHistory => true
  | onHandler _ => false

/-! ## Moves of a way -/

section moves
variable {α : Type}

/-- One state more makes one move more, from the state that was the last. -/
theorem zip_tail_concat {way : List α} {a : α} (hlast : way.getLast? = some a) (b : α) :
    (way ++ [b]).zip (way ++ [b]).tail = way.zip way.tail ++ [(a, b)] := by
  induction way with
  | nil => cases hlast
  | cons first rest ih =>
    cases rest with
    | nil =>
      cases hlast
      rfl
    | cons second more =>
      have hrest := ih (by rwa [List.getLast?_cons_cons] at hlast)
      simp only [List.cons_append, List.tail_cons, List.zip_cons_cons] at hrest ⊢
      rw [hrest]

/-- Without its first states, a way has the later moves. -/
theorem zip_tail_drop (way : List α) (k : Nat) :
    (way.drop k).zip (way.drop k).tail = (way.zip way.tail).drop k := by
  rw [List.tail_drop_eq_drop_tail, List.zip_eq_zipWith, List.zip_eq_zipWith, List.drop_zipWith]

end moves

namespace History

/-- The moves on record, oldest first. -/
def moves (h : History) : List (State × State) :=
  h.records.toList.map fun r => (r.before, r.after)

@[simp] theorem length_moves (h : History) : h.moves.length = h.size := by
  simp [moves, size]

/-- With moves on record that are those of a way, the path is that way. -/
theorem path_of_moves {h : History} {way : List State} (hmoves : h.moves = way.zip way.tail)
    (hsome : h.moves ≠ []) : h.path = way := by
  unfold path
  unfold moves at hmoves hsome
  generalize h.records.toList = rs at hmoves hsome ⊢
  cases rs with
  | nil => exact absurd rfl hsome
  | cons oldest newer =>
    match way with
    | [] => cases hmoves
    | [_] => cases hmoves
    | a :: b :: rest =>
      simp only [List.map_cons, List.tail_cons, List.zip_cons_cons, List.cons.injEq,
        Prod.mk.injEq] at hmoves
      obtain ⟨⟨hbefore, hafter⟩, hnewer⟩ := hmoves
      -- the states after the newer records are the second ones of their moves
      have hrest : newer.map (fun r => r.after) = rest := by
        have hsecond := congrArg (List.map Prod.snd) hnewer
        rw [List.map_map, List.map_snd_zip (by simp)] at hsecond
        exact hsecond
      simp only [hbefore, hafter, hrest]

theorem path_of_no_moves {h : History} (hnone : h.moves = []) : h.path = [] := by
  rw [path, List.map_eq_nil_iff.mp hnone]

theorem isEmpty_iff_moves (h : History) : h.isEmpty ↔ h.moves = [] := by
  simp [isEmpty, moves]

end History

namespace Machine

variable {σ : Type}

/-! ## What is on record of a way -/

/-- **Retracing**: the moves on record are the newest ones of a way that leads
    to the current state. -/
structure Retraces (m : Machine σ) (way : List State) : Prop where
  current : way.getLast? = some m.state
  moves : m.history.moves = History.newest m.history.limit (way.zip way.tail)

theorem Retraces.of_empty {m : Machine σ} (hempty : m.history.records = #[]) :
    m.Retraces [m.state] where
  current := rfl
  moves := by
    have hfits : History.Fits m.history.limit ([] : List (State × State)).length :=
      fun _ _ => Nat.zero_le _
    rw [History.moves, hempty]
    exact (History.newest_of_fits hfits).symm

theorem Retraces.with_handler {m : Machine σ} {way : List State} (hm : m.Retraces way) (s : σ) :
    Retraces { m with handler := s } way :=
  ⟨hm.current, hm.moves⟩

/-- Completing a step takes the way one state further. -/
theorem Retraces.complete {m : Machine σ} {way : List State} (hm : m.Retraces way) (now : Instant)
    (i : Input) (s : σ) :
    (m.complete (m.transition i) now s).Retraces (way ++ [(m.transition i).after]) where
  current := List.getLast?_concat
  moves := by
    have hfits : History.Fits m.history.limit m.history.moves.length := by
      rw [hm.moves]
      exact History.fits_newest _ _
    have hbefore : (m.transition i).before = m.state := Table.before_transition _ _ _
    have hlimit : (m.complete (m.transition i) now s).history.limit = m.history.limit :=
      History.limit_record _ _
    have hkept : (m.complete (m.transition i) now s).history.moves =
        History.keep m.history.limit m.history.moves
          ((m.transition i).before, (m.transition i).after) :=
      History.map_records_record (fun r => (r.before, r.after)) _ m.history
    rw [hkept, hlimit, History.keep_eq_newest _ hfits, hm.moves, History.newest_newest_append,
      hbefore, zip_tail_concat hm.current]

/-- The moves on record are those at the end of the way, where it has one state
    more than there are records. -/
theorem Retraces.moves_eq {m : Machine σ} {way : List State} (hm : m.Retraces way) :
    m.history.moves =
      (way.rtake (m.history.size + 1)).zip (way.rtake (m.history.size + 1)).tail := by
  obtain ⟨dropped, hdropped⟩ : m.history.moves <:+ way.zip way.tail := by
    rw [hm.moves]
    exact History.newest_suffix _ _
  have hway : way ≠ [] := List.getLast?_isSome.mp (hm.current ▸ rfl)
  have hpositive : 0 < way.length := List.length_pos_of_ne_nil hway
  -- as many states are dropped as moves
  have hlength := congrArg List.length hdropped
  simp only [List.length_append, History.length_moves, List.length_zip, List.length_tail] at hlength
  rw [List.rtake, show way.length - (m.history.size + 1) = dropped.length from by omega,
    zip_tail_drop, ← hdropped, List.drop_left]

/-- There is a record for each move of the way, or as many as the cap allows. -/
theorem Retraces.size_eq {m : Machine σ} {first : State} {later : List State} {limit : UInt64}
    (hm : m.Retraces (first :: later)) (hlimit : m.history.limit = some limit) :
    m.history.size = min limit.toNat later.length := by
  have hlength := congrArg List.length hm.moves
  rw [hlimit, History.length_moves] at hlength
  simp only [History.newest, List.length_drop, List.length_zip, List.length_tail,
    List.length_cons] at hlength
  omega

/-- With something on record, the path is the end of the way and leads to the
    current state. -/
theorem Retraces.path_eq {m : Machine σ} {way : List State} (hm : m.Retraces way)
    (hsome : ¬m.history.isEmpty) :
    m.history.path = way.rtake (m.history.size + 1) ∧
      m.history.path.getLast? = some m.state := by
  have hpath := History.path_of_moves hm.moves_eq (mt m.history.isEmpty_iff_moves.mpr hsome)
  have hway : way ≠ [] := List.getLast?_isSome.mp (hm.current ▸ rfl)
  -- the end of the way has the last state of the way
  have hlast : way.length - (m.history.size + 1) < way.length :=
    Nat.sub_lt (List.length_pos_of_ne_nil hway) (Nat.succ_pos _)
  refine ⟨hpath, ?_⟩
  rw [hpath, ← hm.current, List.rtake, List.getLast?_drop]
  exact if_neg (Nat.not_le.mpr hlast)

theorem Retraces.zip_tail_path {m : Machine σ} {way : List State} (hm : m.Retraces way) :
    m.history.path.zip m.history.path.tail = m.history.moves := by
  by_cases hnone : m.history.moves = []
  · rw [History.path_of_no_moves hnone, hnone]
    rfl
  · rw [History.path_of_moves hm.moves_eq hnone]
    exact hm.moves_eq.symm

/-! ## Runs -/

variable [Handler σ]

/-- The state that a command leads to, if it completes an input. -/
def stop? (m : Machine σ) : Command σ → Option State
  | .input now i =>
    match m.handle now i with
    | .finished m' => some m'.state
    | .brokenOff _ => none
  | .clearHistory => none
  | .onHandler _ => none

/-- **Stops** of a run: the states that it comes to, one for each input that is
    completed. -/
def stops : List (Command σ) → Machine σ → List State
  | [], _ => []
  | c :: rest, m => (m.stop? c).toList ++ stops rest (m.obey c).value

/-- Unless the records are dropped, a command takes the way as far as it
    leads. -/
theorem Retraces.obey {m : Machine σ} {way : List State} (hm : m.Retraces way) {c : Command σ}
    (hc : c.clears = false) : (m.obey c).value.Retraces (way ++ (m.stop? c).toList) := by
  cases c with
  | input now i =>
    rcases handle_cases m now i with ⟨s, -, hhandle⟩ | ⟨s, -, hhandle⟩
    · simp only [Machine.obey, stop?, hhandle]
      exact hm.complete now i s
    · -- what is broken off is no stop, and leaves state and records as they were
      simp only [Machine.obey, stop?, hhandle, Option.toList_none, List.append_nil]
      exact hm.with_handler s
  | clearHistory => cases hc
  | onHandler work =>
    simp only [Machine.obey, stop?, value_onHandler, Option.toList_none, List.append_nil]
    exact hm.with_handler _

/-- As long as the records are not dropped, a run takes the way through its
    `stops`. -/
theorem Retraces.runOn {m : Machine σ} {way : List State} (hm : m.Retraces way)
    {commands : List (Command σ)} (hcommands : ∀ c ∈ commands, c.clears = false) :
    (m.runOn commands).Retraces (way ++ m.stops commands) := by
  induction commands generalizing m way with
  | nil =>
    rw [stops, List.append_nil]
    exact hm
  | cons c rest ih =>
    have hstep := hm.obey (hcommands c List.mem_cons_self)
    have hrest := ih hstep fun d hd => hcommands d (List.mem_cons_of_mem c hd)
    rw [runOn_cons, stops, ← List.append_assoc]
    exact hrest

theorem limit_obey (m : Machine σ) (c : Command σ) :
    (m.obey c).value.history.limit = m.history.limit := by
  rcases obey_cases m c with ⟨now, i, s, -, hvalue⟩ | ⟨-, hvalue⟩ | ⟨s, hvalue⟩
  · rw [hvalue]
    exact History.limit_record _ _
  · rw [hvalue]
    rfl
  · rw [hvalue]

theorem limit_runOn (m : Machine σ) (commands : List (Command σ)) :
    (m.runOn commands).history.limit = m.history.limit := by
  induction commands generalizing m with
  | nil => rfl
  | cons c rest ih =>
    rw [runOn_cons, ih, limit_obey]

/-- Up to the last dropping of records there is nothing on record, if there was
    nothing at the start. -/
theorem records_runOn_rdropWhile {m : Machine σ} (hempty : m.history.records = #[])
    (commands : List (Command σ)) :
    (m.runOn (commands.rdropWhile fun c => !c.clears)).history.records = #[] := by
  -- from the end, since the cut is after the last command that drops the records
  induction commands using List.reverseRecOn with
  | nil => exact hempty
  | append_singleton commands c ih =>
    cases hc : c.clears with
    | false =>
      rw [List.rdropWhile_concat_pos _ _ _ (by simp [hc])]
      exact ih
    | true =>
      rw [List.rdropWhile_concat_neg _ _ _ (by simp [hc]), runOn_append]
      cases c with
      | clearHistory => rfl
      | input now i => cases hc
      | onHandler work => cases hc

/-- **The path is the end of the way.** Take a machine as it was set up through
    any commands, with the handler breaking off wherever it may, and cut the run
    after the last dropping of records, if there was one. The way is the state
    at the cut, then the `stops` of the run since.

    There are as many records as stops, or as many as the cap allows. Without
    records the path is empty. Otherwise it is the end of the way, with one
    state more than there are records, and leads to the current state. The moves
    of the path are those of the records. -/
theorem path_ends_way {m : Machine σ} (hnew : m.IsNew) (commands : List (Command σ)) :
    let cut := m.runOn (commands.rdropWhile fun c => !c.clears)
    let stops := cut.stops (commands.rtakeWhile fun c => !c.clears)
    let way := cut.state :: stops
    let h := (m.runOn commands).history
    (∃ n, m.history.limit = some n ∧ h.size = min n.toNat stops.length) ∧
      (h.isEmpty → h.path = []) ∧
      (¬h.isEmpty →
        h.path = way.rtake (h.size + 1) ∧ h.path.getLast? = some (m.runOn commands).state) ∧
      h.path.zip h.path.tail = h.records.toList.map fun r => (r.before, r.after) := by
  intro cut stops way h
  obtain ⟨table, initial, limit, handler, hstart⟩ := hnew.exists_start
  have hlimit : m.history.limit = some limit := by rw [hstart]; rfl
  have hempty : cut.history.records = #[] :=
    records_runOn_rdropWhile (by rw [hstart]; rfl) commands
  have hsplit : m.runOn commands = cut.runOn (commands.rtakeWhile fun c => !c.clears) := by
    rw [← runOn_append, List.rdropWhile_append_rtakeWhile]
  have hretraces : (m.runOn commands).Retraces way := by
    rw [hsplit]
    exact (Retraces.of_empty hempty).runOn fun c hc => by
      simpa using List.mem_rtakeWhile_imp hc
  refine ⟨⟨limit, hlimit, ?_⟩, ?_, hretraces.path_eq, hretraces.zip_tail_path⟩
  · exact hretraces.size_eq ((limit_runOn m commands).trans hlimit)
  · intro hh
    exact History.path_of_no_moves (h.isEmpty_iff_moves.mp hh)

/-- A gate with room for two records, whose handler breaks off on its third
    call. -/
def stiffGate : Machine Fragile := .start .twoCoin .unlocked 2 (.fresh fun n => n == 3)

/-- After a passage the records are dropped. Then somebody pushes, a coin fails
    to silence the alarm, two more coins are taken and the gate is reset. -/
def stiffDay : List (Command Fragile) :=
  [.input ⟨0⟩ (.event .pass), .clearHistory, .input ⟨1⟩ (.event .pass),
    .input ⟨2⟩ (.event .coin), .input ⟨3⟩ (.event .coin), .input ⟨4⟩ (.event .coin),
    .input ⟨5⟩ .reset]

/-- Four inputs are completed since the records were dropped, two of them are on
    record, and the path has the last three of five states. -/
theorem stiffGate_path :
    let cut := stiffGate.runOn (stiffDay.take 2)
    stiffGate.IsNew ∧ cut.state = .locked ∧
      cut.stops (stiffDay.drop 2) = [.alarming, .unlocked, .unlocked, .locked] ∧
      (stiffGate.runOn stiffDay).history.size = 2 ∧
      (stiffGate.runOn stiffDay).history.path = [.unlocked, .unlocked, .locked] := by
  intro cut
  have hnew : stiffGate.IsNew :=
    .built (p :=
      { handler := some (.fresh fun n => n == 3), initial := .unlocked, historyLimit := 2 }) rfl
  obtain ⟨⟨n, hn, hsize⟩, -, hpath, -⟩ := path_ends_way hnew stiffDay
  have hcap : (stiffGate.runOn stiffDay).history.size = 2 := by
    cases hn
    exact hsize
  refine ⟨hnew, by decide, by decide, hcap, ?_⟩
  rw [(hpath (by decide +kernel)).1, hcap]
  rfl

end Machine

end FareGate
