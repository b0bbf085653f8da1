import Mathlib.Init

/-!
# Coroutines

A coroutine runs operations one after the other and keeps a log of them. It ends with a value, or
with the exception of an operation.

* `await op r`: the operation is awaited as it is: its error is thrown.
* `redirect op r`: its error is handed to the coroutine.
* `bind_of_ok`, `bind_of_error`: what follows an operation, and what an exception skips.
* `forall_log_bind`: what holds of all events of two coroutines holds of those of both together.
-/

namespace Malloy
namespace Lib

/-- A coroutine that has ended (module doc). -/
structure Coro (Ev ε α : Type) where
  log : List Ev
  result : Except ε α

namespace Coro

variable {Ev ε α β : Type}

instance : Monad (Coro Ev ε) where
  pure a := ⟨[], .ok a⟩
  bind x f :=
    match x.result with
    | .ok a => ⟨x.log ++ (f a).log, (f a).result⟩
    | .error e => ⟨x.log, .error e⟩

def await (op : Ev) (r : Except ε α) : Coro Ev ε α := ⟨[op], r⟩

def redirect (op : Ev) (r : α) : Coro Ev ε α := ⟨[op], .ok r⟩

@[simp] theorem log_pure (a : α) : (pure a : Coro Ev ε α).log = [] := rfl

@[simp] theorem result_pure (a : α) : (pure a : Coro Ev ε α).result = .ok a := rfl

@[simp] theorem log_await (op : Ev) (r : Except ε α) : (await op r).log = [op] := rfl

@[simp] theorem log_redirect (op : Ev) (r : α) : (redirect op r : Coro Ev ε α).log = [op] := rfl

@[simp] theorem redirect_bind (op : Ev) (r : α) (f : α → Coro Ev ε β) :
    redirect op r >>= f = ⟨op :: (f r).log, (f r).result⟩ := rfl

theorem bind_of_ok {x : Coro Ev ε α} {a : α} (h : x.result = .ok a) (f : α → Coro Ev ε β) :
    x >>= f = ⟨x.log ++ (f a).log, (f a).result⟩ := by
  simp only [bind, h]

theorem bind_of_error {x : Coro Ev ε α} {e : ε} (h : x.result = .error e)
    (f : α → Coro Ev ε β) : x >>= f = ⟨x.log, .error e⟩ := by
  simp only [bind, h]

theorem forall_log_bind {x : Coro Ev ε α} {f : α → Coro Ev ε β} {P : Ev → Prop}
    (hx : ∀ e ∈ x.log, P e) (hf : ∀ a, ∀ e ∈ (f a).log, P e) :
    ∀ e ∈ (x >>= f).log, P e := by
  cases hr : x.result with
  | error err =>
    rw [bind_of_error hr]
    exact hx
  | ok a =>
    rw [bind_of_ok hr]
    exact List.forall_mem_append.mpr ⟨hx, hf a⟩

end Coro

end Lib
end Malloy
