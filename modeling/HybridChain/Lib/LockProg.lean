import Mathlib.Logic.Function.Basic
import Mathlib.Tactic

/-!
# Programs that take locks

Programs of a single thread that read and write a state, take and release locks, and may fail. The
locks are reader-writer locks that are not reentrant.

## Main definitions

* `Prog`, `exec`: a conflicting request blocks for ever
* `eval`: requests are skipped

## Main results

* `eval_of_exec`: a run that is not blocked does the same without locks
-/

namespace LockProg

/-! ## Locks -/

inductive Mode where
  | read
  | write
  deriving DecidableEq

/-- The state of a lock; `readers n` stands for `n + 1` readers. -/
inductive Hold where
  | free
  | readers (n : ℕ)
  | writer
  deriving DecidableEq

namespace Hold

/-- The lock after a request, or `none` if the request has to wait. -/
def acquire : Hold → Mode → Option Hold
  | free, .read => some (readers 0)
  | free, .write => some writer
  | readers n, .read => some (readers (n + 1))
  | _, _ => none

/-- The lock after a release, or `none` if it is not held in this mode. -/
def release : Hold → Mode → Option Hold
  | readers 0, .read => some free
  | readers (n + 1), .read => some (readers n)
  | writer, .write => some free
  | _, _ => none

lemma release_of_acquire {hold held : Hold} {mode : Mode} (h : hold.acquire mode = some held) :
    held.release mode = some hold := by
  cases hold <;> cases mode <;> cases h <;> rfl

end Hold

/-! ## Programs -/

/-- Programs over locks `ℓ` and a state `σ` with results in `α`. -/
inductive Prog (ℓ σ α : Type) where
  | ret (a : α)
  /-- A failure that ends the thread. -/
  | fault
  | get (next : σ → Prog ℓ σ α)
  | put (s : σ) (next : Prog ℓ σ α)
  | acquire (l : ℓ) (mode : Mode) (next : Prog ℓ σ α)
  | release (l : ℓ) (mode : Mode) (next : Prog ℓ σ α)

variable {ℓ σ α β : Type}

def Prog.bind : Prog ℓ σ α → (α → Prog ℓ σ β) → Prog ℓ σ β
  | .ret a, f => f a
  | .fault, _ => .fault
  | .get next, f => .get fun s => (next s).bind f
  | .put s next, f => .put s (next.bind f)
  | .acquire l mode next, f => .acquire l mode (next.bind f)
  | .release l mode next, f => .release l mode (next.bind f)

instance : Monad (Prog ℓ σ) where
  pure := .ret
  bind := .bind

def load : Prog ℓ σ σ := .get .ret

def store (s : σ) : Prog ℓ σ Unit := .put s (.ret ())

/-- A section that holds a lock and releases it at its end. -/
def withLock (l : ℓ) (mode : Mode) (body : Prog ℓ σ α) : Prog ℓ σ α :=
  .acquire l mode (body.bind fun a => .release l mode (.ret a))

/-! ## Running with locks -/

inductive Outcome (ℓ σ α : Type) where
  | returned (a : α) (locks : ℓ → Hold) (s : σ)
  /-- The thread waits for a lock that it holds itself, in a mode that excludes the request. -/
  | blocked (l : ℓ) (mode : Mode)
  | faulted

def Outcome.andThen (o : Outcome ℓ σ α) (f : α → (ℓ → Hold) → σ → Outcome ℓ σ β) : Outcome ℓ σ β :=
  match o with
  | .returned a locks s => f a locks s
  | .blocked l mode => .blocked l mode
  | .faulted => .faulted

/-- A run of one thread, from the locks that it holds. -/
def Prog.exec [DecidableEq ℓ] : Prog ℓ σ α → (ℓ → Hold) → σ → Outcome ℓ σ α
  | .ret a, locks, s => .returned a locks s
  | .fault, _, _ => .faulted
  | .get next, locks, s => (next s).exec locks s
  | .put s next, locks, _ => next.exec locks s
  | .acquire l mode next, locks, s =>
    match (locks l).acquire mode with
    | none => .blocked l mode
    | some held => next.exec (Function.update locks l held) s
  | .release l mode next, locks, s =>
    match (locks l).release mode with
    | none => .faulted
    | some held => next.exec (Function.update locks l held) s

/-- The program returns from all locks free, and leaves them free. -/
def Prog.Returns [DecidableEq ℓ] (p : Prog ℓ σ α) (s : σ) : Prop :=
  ∃ a s', p.exec (fun _ => .free) s = .returned a (fun _ => .free) s'

section Exec

variable [DecidableEq ℓ] (locks : ℓ → Hold) (s : σ)

@[simp] lemma exec_pure (a : α) :
    (pure a : Prog ℓ σ α).exec locks s = .returned a locks s := rfl

@[simp] lemma exec_fault : (Prog.fault : Prog ℓ σ α).exec locks s = .faulted := rfl

@[simp] lemma exec_load : (load : Prog ℓ σ σ).exec locks s = .returned s locks s := rfl

@[simp] lemma exec_store (t : σ) :
    (store t : Prog ℓ σ Unit).exec locks s = .returned () locks t := rfl

@[simp] lemma exec_bind (p : Prog ℓ σ α) (f : α → Prog ℓ σ β) :
    (p >>= f).exec locks s = (p.exec locks s).andThen fun a locks s => (f a).exec locks s := by
  change (p.bind f).exec locks s = _
  induction p generalizing locks s with
  | ret a | fault => rfl
  | get next ih => exact ih s locks s
  | put t next ih => exact ih locks t
  | acquire l mode next ih | release l mode next ih =>
    simp only [Prog.bind, Prog.exec]
    split
    · rfl
    · exact ih _ _

variable {locks s} {l : ℓ} {mode : Mode} {held : Hold} {body : Prog ℓ σ α}

lemma exec_withLock_of_conflict (h : (locks l).acquire mode = none) :
    (withLock l mode body).exec locks s = .blocked l mode := by
  simp only [withLock, Prog.exec, h]

lemma exec_withLock (h : (locks l).acquire mode = some held) : (withLock l mode body).exec locks s =
      (body.exec (Function.update locks l held) s).andThen fun a locks s =>
        (Prog.release l mode (.ret a)).exec locks s := by
  simp only [withLock, Prog.exec, h]
  exact exec_bind _ s body _

lemma exec_release (h : (locks l).acquire mode = some held) (a : α) (t : σ) :
    (Prog.release l mode (.ret a)).exec (Function.update locks l held) t = .returned a locks t := by
  simp only [Prog.exec, Function.update_self, Hold.release_of_acquire h, Function.update_idem,
    Function.update_eq_self]

/-- A section whose body returns with the locks that it started with returns, and its own lock is
as before. -/
lemma exec_withLock_returned {a : α} {t : σ} (h : (locks l).acquire mode = some held)
    (hbody : body.exec (Function.update locks l held) s =
      .returned a (Function.update locks l held) t) :
    (withLock l mode body).exec locks s = .returned a locks t := by
  rw [exec_withLock h, hbody]
  exact exec_release h a t

end Exec

/-! ## Running without locks -/

/-- The result of a program without its locks and the state afterwards; `none` is a failure. -/
def Prog.eval : Prog ℓ σ α → σ → Option (α × σ)
  | .ret a, s => some (a, s)
  | .fault, _ => none
  | .get next, s => (next s).eval s
  | .put s next, _ => next.eval s
  | .acquire _ _ next, s => next.eval s
  | .release _ _ next, s => next.eval s

@[simp] lemma eval_pure (a : α) (s : σ) : (pure a : Prog ℓ σ α).eval s = some (a, s) := rfl

@[simp] lemma eval_fault (s : σ) : (Prog.fault : Prog ℓ σ α).eval s = none := rfl

@[simp] lemma eval_load (s : σ) : (load : Prog ℓ σ σ).eval s = some (s, s) := rfl

@[simp] lemma eval_store (s t : σ) : (store t : Prog ℓ σ Unit).eval s = some ((), t) := rfl

@[simp] lemma eval_bind (p : Prog ℓ σ α) (f : α → Prog ℓ σ β) (s : σ) :
    (p >>= f).eval s = (p.eval s).bind fun r => (f r.1).eval r.2 := by
  change (p.bind f).eval s = _
  induction p generalizing s with
  | ret a | fault => rfl
  | get next ih => exact ih s s
  | put t next ih => exact ih t
  | acquire l mode next ih | release l mode next ih => exact ih s

@[simp] lemma eval_withLock (l : ℓ) (mode : Mode) (body : Prog ℓ σ α) (s : σ) :
    (withLock l mode body).eval s = body.eval s := by
  have h := eval_bind body (fun a => Prog.release l mode (.ret a)) s
  refine h.trans ?_
  cases body.eval s <;> rfl

/-- **Locks only block**: a run with locks that returns is the run without. -/
theorem eval_of_exec [DecidableEq ℓ] {p : Prog ℓ σ α} {locks locks' : ℓ → Hold} {s s' : σ} {a : α}
    (h : p.exec locks s = .returned a locks' s') : p.eval s = some (a, s') := by
  induction p generalizing locks s with
  | ret b =>
    cases h
    rfl
  | fault => cases h
  | get next ih => exact ih s h
  | put t next ih => exact ih h
  | acquire l mode next ih | release l mode next ih =>
    simp only [Prog.exec] at h
    split at h
    · cases h
    · exact ih h

end LockProg
