import FareGate.Handler.Fragile

/-! # Steady handlers and handlers under watch

  What can be said of a run when the handler does not break off, and how the
  calls of a run are observed:

  * **Steady** (`Steady`): a handler that finishes whatever calls it is given,
    now and later.
  * **Watched** (`Watched`): a handler with a recorder beside it. Whatever the
    handler makes of a call, the recorder has taken note of it, so the calls
    that a gate makes can be read off afterwards. -/

namespace FareGate

/-! ## What a recorder notes -/

namespace Recorder

def noteAll (cs : List Call) (r : Recorder) : Recorder := ⟨r.calls ++ cs.toArray⟩

@[simp] theorem calls_noteAll (cs : List Call) (r : Recorder) :
    (r.noteAll cs).calls.toList = r.calls.toList ++ cs := by
  simp [noteAll]

@[simp] theorem noteAll_nil (r : Recorder) : r.noteAll [] = r := by
  simp [noteAll]

@[simp] theorem noteAll_note (c : Call) (cs : List Call) (r : Recorder) :
    (r.note c).noteAll cs = r.noteAll (c :: cs) := by
  simp [noteAll, note]

theorem noteAll_append (cs ds : List Call) (r : Recorder) :
    r.noteAll (cs ++ ds) = (r.noteAll cs).noteAll ds := by
  simp [noteAll]

theorem drop_calls_noteAll (cs : List Call) (r : Recorder) :
    (r.noteAll cs).calls.toList.drop r.calls.size = cs := by
  rw [calls_noteAll, ← Array.length_toList, List.drop_left]

theorem performAll_noteAll (cs : List Call) (r : Recorder) :
    performAll cs r = .finished (r.noteAll cs) := by
  induction cs generalizing r with
  | nil => simp
  | cons c rest ih => simp [ih]

end Recorder

/-- The text of calls in order, as `Recorder.trace` shows them. -/
def Call.traceOf (cs : List Call) : String := String.join (cs.map Call.symbol)

@[simp] theorem Call.traceOf_append (cs ds : List Call) :
    Call.traceOf (cs ++ ds) = Call.traceOf cs ++ Call.traceOf ds := by
  simp [Call.traceOf]

theorem Recorder.trace_noteAll (cs : List Call) (r : Recorder) :
    (r.noteAll cs).trace = r.trace ++ Call.traceOf cs := by
  simp [Recorder.trace, Call.traceOf]

/-! ## Steady handlers -/

section steady
variable {σ : Type} [Handler σ]

/-- **Steadiness**: whatever calls the handler is given, it finishes them. -/
def Steady (s : σ) : Prop := ∀ cs : List Call, ∃ s', performAll cs s = .finished s'

theorem Steady.after_calls {s s' : σ} {cs : List Call} (hs : Steady s)
    (hcs : performAll cs s = .finished s') : Steady s' := by
  intro more
  -- more calls now are the later part of all calls from the start
  obtain ⟨s'', hmore⟩ := hs (cs ++ more)
  rw [performAll_append, hcs] at hmore
  exact ⟨s'', hmore⟩

end steady

theorem Recorder.steady (r : Recorder) : Steady r := by
  intro cs
  exact ⟨r.noteAll cs, Recorder.performAll_noteAll cs r⟩

/-! ## Handlers under watch -/

/-- A handler with a recorder beside it. -/
structure Watched (σ : Type) where
  /-- The handler that answers the calls. -/
  handler : σ
  /-- The recorder that takes note of them. -/
  recorder : Recorder := .empty

namespace Watched
variable {σ : Type} [Handler σ]

/-- The recorder takes note, and the handler answers. -/
def attend (c : Call) (answer : σ → Attempt σ) (w : Watched σ) : Attempt (Watched σ) :=
  (answer w.handler).map fun s => ⟨s, w.recorder.note c⟩

instance : Handler (Watched σ) where
  lock := attend (.action .lock) Handler.lock
  unlock := attend (.action .unlock) Handler.unlock
  thankyou := attend (.action .thankyou) Handler.thankyou
  alarmOn := attend (.action .alarmOn) Handler.alarmOn
  alarmOff := attend (.action .alarmOff) Handler.alarmOff
  unexpected state event := attend (.unexpected state event) (Handler.unexpected state event)

theorem perform_eq (c : Call) (w : Watched σ) :
    c.perform w = (c.perform w.handler).map fun s => ⟨s, w.recorder.note c⟩ := by
  cases c with
  | action a => cases a <;> rfl
  | unexpected state event => rfl

/-- Calls are finished under watch when the handler beneath finishes them, and
    the recorder then has every one of them. -/
theorem performAll_eq_finished_iff {cs : List Call} {w w' : Watched σ} :
    performAll cs w = .finished w' ↔
      performAll cs w.handler = .finished w'.handler ∧
        w'.recorder = w.recorder.noteAll cs := by
  induction cs generalizing w with
  | nil =>
    obtain ⟨s, r⟩ := w
    obtain ⟨s', r'⟩ := w'
    simp [eq_comm]
  | cons c rest ih =>
    rw [performAll_cons, performAll_cons, perform_eq]
    cases c.perform w.handler with
    | finished s =>
      -- the recorder has this call, and the rest is up to what follows
      have hrest := ih (w := ⟨s, w.recorder.note c⟩)
      rwa [Recorder.noteAll_note] at hrest
    | brokenOff s => simp [Attempt.map]

/-- Under watch, the handler is given every call that is made, and the recorder
    has every one of them. -/
theorem performAll_finished {cs : List Call} {w : Watched σ} {s : σ}
    (hcs : performAll cs w.handler = .finished s) :
    performAll cs w = .finished ⟨s, w.recorder.noteAll cs⟩ :=
  performAll_eq_finished_iff.mpr ⟨hcs, rfl⟩

theorem steady {w : Watched σ} (hw : Steady w.handler) : Steady w := by
  intro cs
  obtain ⟨s, hs⟩ := hw cs
  exact ⟨_, performAll_finished hs⟩

end Watched

end FareGate
