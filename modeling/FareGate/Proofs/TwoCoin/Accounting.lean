import FareGate.Proofs.Machine.Occasion

/-! # Coins and passages of the standard gate

  No coin is lost at the standard gate, and nobody passes for nothing:

  * **Account** (`Account`): how many coins came in and what became of them, how
    often the arm was freed and what became of that. The coins, the pushes and
    the resets are counted as they come in, the rest as the handler is called.
  * **Balance** (`Balanced`) of an account between two states: a coin that is
    waiting for a second one and an arm that is free are carried over from the
    first state and to the last one.
  * **One step** of `Table.twoCoin` keeps the balance. Accounts add up, so every
    walk keeps it, and so does every run of the standard gate. -/

namespace FareGate

/-! ## Accounts -/

/-- What came in at a gate, and what was done about it. -/
structure Account where
  /-- The coins put in. -/
  coins : Nat
  /-- How often the arm was freed. -/
  unlocks : Nat
  /-- How often a coin was thanked for. -/
  thanks : Nat
  /-- The coins put in while the alarm sounded. -/
  settlements : Nat
  /-- The pushes and resets that found one coin waiting for another. -/
  forfeits : Nat
  /-- The pushes that found the arm free: the passages. -/
  passages : Nat
  /-- The resets that found the arm free. -/
  recalls : Nat
deriving DecidableEq

namespace Account

/-- The account of inputs, each given with the state that it found the gate in,
    and of the calls made. -/
def of (found : List (State × Input)) (calls : List Call) : Account where
  coins := found.countP fun f => f.2 = .event .coin
  unlocks := calls.count (.action .unlock)
  thanks := calls.count (.action .thankyou)
  settlements := found.count (.alarming, .event .coin)
  forfeits := found.count (.firstCoin, .event .pass) + found.count (.firstCoin, .reset)
  passages := found.count (.unlocked, .event .pass)
  recalls := found.count (.unlocked, .reset)

def add (a b : Account) : Account where
  coins := a.coins + b.coins
  unlocks := a.unlocks + b.unlocks
  thanks := a.thanks + b.thanks
  settlements := a.settlements + b.settlements
  forfeits := a.forfeits + b.forfeits
  passages := a.passages + b.passages
  recalls := a.recalls + b.recalls

theorem of_append (found more : List (State × Input)) (calls others : List Call) :
    of (found ++ more) (calls ++ others) = (of found calls).add (of more others) := by
  simp only [of, add, List.countP_append, List.count_append, mk.injEq, true_and, and_true]
  omega

/-! ## Balance -/

def waiting (s : State) : Nat := if s = .firstCoin then 1 else 0

def free (s : State) : Nat := if s = .unlocked then 1 else 0

/-- **Balance** of an account that is opened in state `s` and closed in state
    `s'`. -/
structure Balanced (a : Account) (s s' : State) : Prop where
  /-- No alarm is settled without freeing the arm. -/
  settled : a.settlements ≤ a.unlocks
  /-- Two coins free the arm, or one that settles an alarm; any other coin is
      thanked for, forfeited or still waiting. -/
  coins : a.coins + waiting s =
    2 * (a.unlocks - a.settlements) + a.settlements + a.thanks + a.forfeits + waiting s'
  /-- The arm is freed for a passage, recalled by a reset or still free. -/
  unlocks : a.unlocks + free s = a.passages + a.recalls + free s'

theorem Balanced.empty (s : State) : (of [] []).Balanced s s where
  settled := Nat.le_refl 0
  coins := rfl
  unlocks := rfl

/-- What is carried over from one account to the next cancels out. -/
theorem Balanced.add {a b : Account} {s s' s'' : State} (ha : a.Balanced s s')
    (hb : b.Balanced s' s'') : (a.add b).Balanced s s'' := by
  obtain ⟨hsettled, hcoins, hunlocks⟩ := ha
  obtain ⟨hsettled', hcoins', hunlocks'⟩ := hb
  unfold Account.add
  refine ⟨?_, ?_, ?_⟩
  · exact Nat.add_le_add hsettled hsettled'
  · dsimp only
    omega
  · dsimp only
    omega

/-! ## The two-coin table -/

/-- One step of `Table.twoCoin` keeps the balance. -/
theorem twoCoin_step (s : State) (i : Input) :
    (of [(s, i)] (Table.twoCoin.transition s i).calls).Balanced s
      (Table.twoCoin.transition s i).after := by
  -- seven rules, the push that has none, and a reset from every state
  rcases i with (_ | _) | _ <;> cases s <;> refine ⟨?_, ?_, ?_⟩ <;> decide

theorem twoCoin_walk (s : State) (inputs : List Input) :
    (of ((Table.twoCoin.walk s inputs).map fun t => (t.before, t.input))
      ((Table.twoCoin.walk s inputs).flatMap (·.calls))).Balanced s
        (Table.twoCoin.reach s inputs) := by
  induction inputs generalizing s with
  | nil => exact Balanced.empty s
  | cons i rest ih =>
    -- the account of the first step is closed where that of the rest is opened
    have hall := (twoCoin_step s i).add (ih (Table.twoCoin.transition s i).after)
    rw [← of_append] at hall
    simp only [Table.walk, Table.reach, List.map_cons, List.flatMap_cons,
      Table.before_transition, Table.input_transition]
    exact hall

end Account

namespace Machine

variable {σ : Type} [Handler σ]

/-- The account of a run under watch: the inputs as they came in, and the calls
    that the recorder took note of. -/
def account (timed : List (Instant × Input)) (m : Machine (Watched σ)) : Account :=
  .of ((m.occasions timed).map fun o => (o.state, o.input))
    (m.runOn (feed timed)).handler.recorder.calls.toList

/-- **The accounts of the standard gate.** After any inputs, with a steady
    handler, the account of the run is `Balanced`: every coin was one of two
    that freed the arm, settled an alarm, was thanked for, was forfeited or is
    waiting; and the arm was freed once for every passage and every reset that
    found it free, and once more if it is free now. So an unlocking is there for
    a passage whenever the arm is free, and there are never more passages than
    unlockings; and a coin is there for an unlocking whenever one is waiting,
    and there are never fewer than two coins to an unlocking, or one where it
    settled an alarm. -/
theorem standard_run_account {handler : σ} (hsteady : Steady handler)
    (timed : List (Instant × Input)) :
    let m : Machine (Watched σ) := standard ⟨handler, .empty⟩
    let s := (m.runOn (feed timed)).state
    let a := m.account timed
    a.coins = 2 * (a.unlocks - a.settlements) + a.settlements + a.thanks + a.forfeits
        + (if s = .firstCoin then 1 else 0) ∧
      a.unlocks = a.passages + a.recalls + (if s = .unlocked then 1 else 0) ∧
      a.settlements ≤ a.unlocks ∧
      (s = .unlocked → a.passages < a.unlocks) ∧ a.passages ≤ a.unlocks ∧
      (s = .firstCoin → 2 * (a.unlocks - a.settlements) + a.settlements < a.coins) ∧
      2 * (a.unlocks - a.settlements) + a.settlements ≤ a.coins := by
  intro m s a
  -- what is watched is the walk of the two-coin table
  obtain ⟨hadvanced, hrecorder⟩ := runOn_feed_watched (m := m) timed hsteady
  have hfound := occasions_steady (m := m) (Watched.steady hsteady) timed
  have hcalls : (m.runOn (feed timed)).handler.recorder.calls.toList =
      (Table.twoCoin.walk .initial (timed.map (·.2))).flatMap (·.calls) := by
    rw [hrecorder, Recorder.calls_noteAll]
    rfl
  have hstate : s = Table.twoCoin.reach .initial (timed.map (·.2)) := hadvanced.state
  have hbalanced : a.Balanced .initial s := by
    show (Account.of _ _).Balanced _ _
    rw [hfound, hcalls, hstate]
    exact Account.twoCoin_walk .initial (timed.map (·.2))
  -- at the start no coin is waiting and the arm is not free
  have hcoins : a.coins = 2 * (a.unlocks - a.settlements) + a.settlements + a.thanks
      + a.forfeits + Account.waiting s := hbalanced.coins
  have hunlocks : a.unlocks = a.passages + a.recalls + Account.free s := hbalanced.unlocks
  refine ⟨hcoins, hunlocks, hbalanced.settled, ?_, by omega, ?_, by omega⟩
  · intro hopen
    have hfree : Account.free s = 1 := by simp [Account.free, hopen]
    omega
  · intro hcoin
    have hwaiting : Account.waiting s = 1 := by simp [Account.waiting, hcoin]
    omega

/-- A day with a coin too many, a forfeited coin, an alarm that is settled, a
    reset of the free arm and a coin that is waiting in the end. -/
theorem mixedDay_account :
    let m : Machine (Watched Recorder) := standard ⟨.empty, .empty⟩
    let day : List (Instant × Input) :=
      [(⟨0⟩, .event .coin), (⟨1⟩, .event .coin), (⟨2⟩, .event .coin), (⟨3⟩, .event .pass),
        (⟨4⟩, .event .coin), (⟨5⟩, .event .pass), (⟨6⟩, .event .pass), (⟨7⟩, .event .coin),
        (⟨8⟩, .reset), (⟨9⟩, .event .coin)]
    Steady Recorder.empty ∧ (m.runOn (feed day)).state = .firstCoin ∧
      m.account day = ⟨6, 2, 1, 1, 1, 1, 1⟩ ∧
      (m.account day).coins = 2 * (2 - 1) + 1 + 1 + 1 + 1 ∧
      (m.account day).unlocks = 1 + 1 + 0 := by
  intro m day
  have hsteady : Steady Recorder.empty := Recorder.steady _
  have hstate : (m.runOn (feed day)).state = .firstCoin := by decide
  have haccount : m.account day = ⟨6, 2, 1, 1, 1, 1, 1⟩ := by decide
  obtain ⟨hcoins, hunlocks, -⟩ := standard_run_account hsteady day
  change (m.account day).coins = _ at hcoins
  change (m.account day).unlocks = _ at hunlocks
  rw [hstate, haccount] at hcoins hunlocks
  rw [haccount]
  exact ⟨hsteady, hstate, rfl, hcoins, hunlocks⟩

end Machine

end FareGate
