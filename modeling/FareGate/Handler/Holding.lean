import FareGate.Handler

/-! # Handlers on loan and in housings

  A gate need not own its handler outright: the handler may be lent to it, or
  come in a housing of its own, and loans and housings may be nested in any
  way. Every call is passed on unchanged to the handler inside.

  * **Lent**, **Housed**: one layer around a handler.
  * **Holding**: any nesting of layers, with `hold` and `release` as the way in
    and the way out. -/

namespace FareGate

/-! ## One layer -/

/-- A handler on loan: it goes back to its owner with everything done to it. -/
structure Lent (σ : Type) where
  handler : σ

/-- A handler in a housing. -/
structure Housed (σ : Type) where
  content : σ

variable {σ : Type}

/-- A lent handler passes every call on. -/
instance [Handler σ] : Handler (Lent σ) where
  lock l := (Handler.lock l.handler).map .mk
  unlock l := (Handler.unlock l.handler).map .mk
  thankyou l := (Handler.thankyou l.handler).map .mk
  alarmOn l := (Handler.alarmOn l.handler).map .mk
  alarmOff l := (Handler.alarmOff l.handler).map .mk
  unexpected state event l := (Handler.unexpected state event l.handler).map .mk

/-- A housed handler passes every call on. -/
instance [Handler σ] : Handler (Housed σ) where
  lock h := (Handler.lock h.content).map .mk
  unlock h := (Handler.unlock h.content).map .mk
  thankyou h := (Handler.thankyou h.content).map .mk
  alarmOn h := (Handler.alarmOn h.content).map .mk
  alarmOff h := (Handler.alarmOff h.content).map .mk
  unexpected state event h := (Handler.unexpected state event h.content).map .mk

/-! ## Any nesting -/

/-- The layers around a handler, the outermost first. -/
inductive Holding where
  | own
  /-- A loan of what is held inside. -/
  | lent (inside : Holding)
  /-- A housing around what is held inside. -/
  | housed (inside : Holding)

namespace Holding

/-- The type of a handler of type `σ` within these layers. -/
def Carrier : Holding → Type → Type
  | own, σ => σ
  | lent inside, σ => Lent (inside.Carrier σ)
  | housed inside, σ => Housed (inside.Carrier σ)

def hold : (h : Holding) → σ → h.Carrier σ
  | own, s => s
  | lent inside, s => Lent.mk (inside.hold s)
  | housed inside, s => Housed.mk (inside.hold s)

def release : (h : Holding) → h.Carrier σ → σ
  | own, s => s
  | lent inside, s => inside.release (Lent.handler s)
  | housed inside, s => inside.release (Housed.content s)

instance carrierHandler [Handler σ] : (h : Holding) → Handler (h.Carrier σ)
  | own => inferInstanceAs (Handler σ)
  | lent inside =>
    letI : Handler (inside.Carrier σ) := carrierHandler inside
    inferInstanceAs (Handler (Lent (inside.Carrier σ)))
  | housed inside =>
    letI : Handler (inside.Carrier σ) := carrierHandler inside
    inferInstanceAs (Handler (Housed (inside.Carrier σ)))

@[simp] theorem release_hold (h : Holding) (s : σ) : h.release (h.hold s) = s := by
  induction h with
  | own => rfl
  | lent inside ih => exact ih
  | housed inside ih => exact ih

theorem perform_lent [Handler σ] (c : Call) (s : σ) :
    c.perform (Lent.mk s) = (c.perform s).map Lent.mk := by
  cases c with
  | action a => cases a <;> rfl
  | unexpected state event => rfl

theorem perform_housed [Handler σ] (c : Call) (s : σ) :
    c.perform (Housed.mk s) = (c.perform s).map Housed.mk := by
  cases c with
  | action a => cases a <;> rfl
  | unexpected state event => rfl

/-- Through any layers, a call does to the handler inside what it does to the
    handler itself. -/
theorem perform_hold [Handler σ] (h : Holding) (c : Call) (s : σ) :
    c.perform (h.hold s) = (c.perform s).map h.hold := by
  induction h with
  | own =>
    show c.perform s = (c.perform s).map id
    cases c.perform s <;> rfl
  | lent inside ih =>
    -- one layer, and those inside it
    show c.perform (Lent.mk (inside.hold s)) = _
    rw [perform_lent, ih]
    cases c.perform s <;> rfl
  | housed inside ih =>
    show c.perform (Housed.mk (inside.hold s)) = _
    rw [perform_housed, ih]
    cases c.perform s <;> rfl

end Holding

end FareGate
