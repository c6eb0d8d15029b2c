import PulseTrain.Warning

/-!
# Recorders

Recording a sequence is a matter of state: requests are appended, groups remember what they drive. A
`Recorder` is one such request. It may be refused, and it may leave warnings; either way it says what
state it leaves behind. A refusal therefore undoes nothing by itself: what is undone is written down
where it is undone, with `onRefusal`.
-/

namespace PulseTrain

/-- What became of a request: its result or why it was refused, the state left behind, and the warnings
in the order in which they came. -/
structure Outcome (σ ε α : Type) where
  result : Except ε α
  state : σ
  warnings : List Warning := []

/-- A request on a state of type `σ`, which results in an `α` or is refused with an `ε`. -/
def Recorder (σ ε α : Type) : Type :=
  σ → Outcome σ ε α

namespace Recorder

variable {σ ρ ε ε' α β : Type}

/-- The request that changes nothing. -/
protected def pure (a : α) : Recorder σ ε α :=
  fun s => ⟨.ok a, s, []⟩

/-- One request and then another. A refusal of the first is final. -/
protected def bind (r : Recorder σ ε α) (next : α → Recorder σ ε β) : Recorder σ ε β := fun s =>
  let first := r s
  match first.result with
  | .error e => ⟨.error e, first.state, first.warnings⟩
  | .ok a =>
    let second := next a first.state
    ⟨second.result, second.state, first.warnings ++ second.warnings⟩

instance : Monad (Recorder σ ε) where
  pure := Recorder.pure
  bind := Recorder.bind

protected theorem id_map (r : Recorder σ ε α) : id <$> r = r := by
  funext s
  simp only [Functor.map, Recorder.bind, Recorder.pure, Function.comp]
  cases h : (r s).result <;> simp [← h]

protected theorem bind_assoc {γ : Type} (r : Recorder σ ε α) (f : α → Recorder σ ε β)
    (g : β → Recorder σ ε γ) : r >>= f >>= g = r >>= fun a => f a >>= g := by
  funext s
  simp only [Bind.bind, Recorder.bind]
  cases (r s).result with
  | error e => rfl
  | ok a =>
    simp only
    cases (f a (r s).state).result with
    | error e => rfl
    | ok b => simp [List.append_assoc]

protected theorem pure_bind (a : α) (f : α → Recorder σ ε β) : pure a >>= f = f a := by
  funext s
  simp [Pure.pure, Bind.bind, Recorder.bind, Recorder.pure]

/-- Requests can be regrouped. -/
instance : LawfulMonad (Recorder σ ε) :=
  LawfulMonad.mk' _ Recorder.id_map Recorder.pure_bind Recorder.bind_assoc

/-- The request that is refused. -/
def refuse (e : ε) : Recorder σ ε α :=
  fun s => ⟨.error e, s, []⟩

/-- The state as it is. -/
def current : Recorder σ ε σ :=
  fun s => ⟨.ok s, s, []⟩

/-- Changes the state. -/
def update (f : σ → σ) : Recorder σ ε Unit :=
  fun s => ⟨.ok (), f s, []⟩

/-- Leaves a warning. -/
def warn (w : Warning) : Recorder σ ε Unit :=
  fun s => ⟨.ok (), s, [w]⟩

/-- A result that is already known, or its refusal. -/
def ofExcept (x : Except ε α) : Recorder σ ε α :=
  fun s => ⟨x, s, []⟩

/-- The same request, refused in other terms. -/
def mapError (f : ε → ε') (r : Recorder σ ε α) : Recorder σ ε' α := fun s =>
  let o := r s
  ⟨o.result.mapError f, o.state, o.warnings⟩

/-- The same request, with `undo` applied to the state that it leaves when it is refused. -/
def onRefusal (undo : σ → σ) (r : Recorder σ ε α) : Recorder σ ε α := fun s =>
  let o := r s
  match o.result with
  | .ok _ => o
  | .error _ => { o with state := undo o.state }

/-- A request on a part of the state. -/
def within (get : σ → ρ) (set : σ → ρ → σ) (r : Recorder ρ ε α) : Recorder σ ε α := fun s =>
  let o := r (get s)
  ⟨o.result, set s o.state, o.warnings⟩

end Recorder

end PulseTrain
