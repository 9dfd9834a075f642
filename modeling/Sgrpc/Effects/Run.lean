import Mathlib.Tactic.Common

/-!
# Code that throws

A run of a piece of code is how it ends, with a value or an exception, and what it has logged until
then; an exception takes nothing back. `Once` says that the code logs a single entry and returns,
`OnceOrThrows` that it may instead throw before it has logged anything. The rules follow the code:
a handler that logs once turns the second into the first.
-/

namespace Effects

/-- A run that ends with an `α` or throws an `ε`, and logs `β`s. -/
structure Run (ε β α : Type*) where
  result : Except ε α
  log : List β

namespace Run

universe u

variable {ε β γ : Type*} {α α' : Type u} {x : Run ε β α}

/-- Log one entry. -/
def emit (b : β) : Run ε β PUnit := ⟨.ok ⟨⟩, [b]⟩

/-- Code that logs nothing. -/
def ofExcept (r : Except ε α) : Run ε β α := ⟨r, []⟩

/-- The code that comes after is run if this one returns. -/
def andThen (x : Run ε β α) (f : α → Run ε β α') : Run ε β α' :=
  match x.result with
  | .ok a => ⟨(f a).result, x.log ++ (f a).log⟩
  | .error e => ⟨.error e, x.log⟩

/-- The handler is run if the code throws. -/
def catching (x : Run ε β α) (handler : ε → Run ε β α) : Run ε β α :=
  match x.result with
  | .ok a => ⟨.ok a, x.log⟩
  | .error e => ⟨(handler e).result, x.log ++ (handler e).log⟩

instance : Monad (Run ε β) where
  pure a := ⟨.ok a, []⟩
  bind := andThen

instance : MonadExcept ε (Run ε β) where
  throw e := ⟨.error e, []⟩
  tryCatch := catching

/-- The same run, its entries being renamed. -/
def mapLog (f : β → γ) (x : Run ε β α) : Run ε γ α := ⟨x.result, x.log.map f⟩

theorem mapLog_ofExcept (g : β → γ) (r : Except ε α) :
    (ofExcept r).mapLog g = (ofExcept r : Run ε γ α) := rfl

/-- The entries may be renamed in each of the two pieces. -/
theorem mapLog_bind (g : β → γ) (x : Run ε β α) (f : α → Run ε β α') :
    (x >>= f).mapLog g = x.mapLog g >>= fun a => (f a).mapLog g := by
  obtain ⟨_ | a, log⟩ := x
  · rfl
  · exact congrArg (Run.mk _) List.map_append

theorem mapLog_tryCatch (g : β → γ) (x : Run ε β α) (handler : ε → Run ε β α) :
    (tryCatch x handler).mapLog g = tryCatch (x.mapLog g) fun e => (handler e).mapLog g := by
  obtain ⟨e | _, log⟩ := x
  · exact congrArg (Run.mk _) List.map_append
  · rfl

theorem bind_of_pure (a : α) (f : α → Run ε β α') : pure a >>= f = f a := rfl

/-- What has been logged stays when the code goes on. -/
theorem bind_of_ok (a : α) (l : List β) (f : α → Run ε β α') :
    (⟨.ok a, l⟩ : Run ε β α) >>= f = ⟨(f a).result, l ++ (f a).log⟩ := rfl

theorem ofExcept_ok_bind (a : α) (f : α → Run ε β α') : ofExcept (.ok a) >>= f = f a := rfl

/-- What returns is not handled. -/
theorem tryCatch_of_returns (h : ∃ a, x.result = .ok a) (handler : ε → Run ε β α) :
    tryCatch x handler = x := by
  obtain ⟨result, log⟩ := x
  obtain ⟨a, ha⟩ := h
  cases ha
  rfl

/-- A handler that does nothing keeps the log. -/
theorem log_catching_pure (x : Run ε β α) (a : α) : (tryCatch x fun _ => pure a).log = x.log := by
  obtain ⟨_ | _, log⟩ := x
  · exact List.append_nil log
  · rfl

/-! ### Logging once -/

/-- The code logs one entry, and returns. -/
structure Once (x : Run ε β α) : Prop where
  returns : ∃ a, x.result = .ok a
  log : x.log.length = 1

/-- The code logs one entry and returns, or throws before it has logged anything. -/
def OnceOrThrows (x : Run ε β α) : Prop := x.Once ∨ (∃ e, x.result = .error e) ∧ x.log = []

theorem once_emit (b : β) : (emit b : Run ε β PUnit).Once := ⟨⟨⟨⟩, rfl⟩, rfl⟩

theorem Once.orThrows (h : x.Once) : x.OnceOrThrows := Or.inl h

theorem orThrows_throw (e : ε) : (throw e : Run ε β α).OnceOrThrows := Or.inr ⟨⟨e, rfl⟩, rfl⟩

/-- Code that logs nothing may come first. -/
theorem orThrows_ofExcept_bind (r : Except ε α) {f : α → Run ε β α'}
    (hf : ∀ a, (f a).OnceOrThrows) : (ofExcept r >>= f).OnceOrThrows := by
  cases r with
  | error e => exact Or.inr ⟨⟨e, rfl⟩, rfl⟩
  | ok a => exact hf a

/-- A handler that logs once makes up for an exception. -/
theorem OnceOrThrows.tryCatch (h : x.OnceOrThrows) {handler : ε → Run ε β α}
    (hh : ∀ e, (handler e).Once) : (tryCatch x handler).Once := by
  obtain ⟨result, log⟩ := x
  rcases h with ⟨⟨a, ha⟩, hlog⟩ | ⟨⟨e, he⟩, hlog⟩
  · cases ha
    exact ⟨⟨a, rfl⟩, hlog⟩
  · cases he
    cases hlog
    exact hh e

theorem Once.tryCatch (h : x.Once) (handler : ε → Run ε β α) : (tryCatch x handler).Once := by
  rw [tryCatch_of_returns h.returns]
  exact h

end Run

end Effects
