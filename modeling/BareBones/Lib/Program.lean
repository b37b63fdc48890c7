import Mathlib.Logic.Relation

/-!
# Programs that share their state with others

A program is a finite tree of calls, each with its answers.  It runs in a state that others
may change between any two of its calls: a step is either the next call of the program, or
something that the others do.

`Safe I Q p s` is what is proved about a program: from `s`, whatever the others do, the
invariant `I` holds at all times, the next call can be made, and `Q` holds once the program
has returned.  It is defined by recursion over the program, and has one rule for each
constructor (`Safe.pure`, `Safe.call`) and one for a sequence (`Safe.bind`); `Safe.steps` says
that it is about all runs.

`Returns` forgets the state: it tells which calls a program makes, for which answers, until it
returns.
-/

namespace BareBones.Lib

/-- A program that makes calls `κ`. -/
inductive Prog (κ : Type) (Ans : κ → Type) (α : Type)
  | pure (a : α)
  | call (c : κ) (next : Ans c → Prog κ Ans α)

namespace Prog

variable {κ : Type} {Ans : κ → Type} {α β : Type}

/-- A call, and then what it answers. -/
def request (c : κ) : Prog κ Ans (Ans c) := .call c .pure

protected def bind : Prog κ Ans α → (α → Prog κ Ans β) → Prog κ Ans β
  | .pure a, f => f a
  | .call c next, f => .call c fun a ↦ (next a).bind f

instance : Monad (Prog κ Ans) where
  pure := .pure
  bind := Prog.bind

@[simp] theorem pure_bind (a : α) (f : α → Prog κ Ans β) : (Prog.pure a).bind f = f a := rfl

instance : LawfulMonad (Prog κ Ans) := LawfulMonad.mk' _
  (by
    intro α x
    induction x with
    | pure a => rfl
    | call c next ih => exact congrArg (Prog.call c) (funext ih))
  (fun _ _ ↦ rfl)
  (by
    intro α β γ x f g
    induction x with
    | pure a => rfl
    | call c next ih => exact congrArg (Prog.call c) (funext ih))

/-! ## The calls of a program -/

/-- A program that has made the calls `l`, with these answers, returns. -/
inductive Returns : Prog κ Ans α → List (Sigma Ans) → α → Prop
  | pure (a : α) : Returns (.pure a) [] a
  | call {c : κ} {next : Ans c → Prog κ Ans α} {l : List (Sigma Ans)} {b : α} (a : Ans c)
      (h : Returns (next a) l b) : Returns (.call c next) (⟨c, a⟩ :: l) b

theorem returns_pure {a b : α} {l : List (Sigma Ans)} :
    Returns (pure a : Prog κ Ans α) l b ↔ l = [] ∧ b = a := by
  constructor
  · intro h
    cases h
    exact ⟨rfl, rfl⟩
  · rintro ⟨rfl, rfl⟩
    exact .pure b

theorem returns_request {c : κ} {b : Ans c} {l : List (Sigma Ans)} :
    Returns (request c : Prog κ Ans (Ans c)) l b ↔ l = [⟨c, b⟩] := by
  constructor
  · intro h
    cases h with
    | call a h =>
        cases h
        rfl
  · rintro rfl
    exact .call b (.pure b)

/-- The calls of a sequence are those of one program, and then those of the other one. -/
theorem returns_bind {p : Prog κ Ans α} {f : α → Prog κ Ans β} {l : List (Sigma Ans)} {b : β} :
    Returns (p >>= f) l b ↔
      ∃ l₁ l₂ a, l = l₁ ++ l₂ ∧ Returns p l₁ a ∧ Returns (f a) l₂ b := by
  constructor
  · intro h
    induction p generalizing l with
    | pure a => exact ⟨[], l, a, rfl, .pure a, h⟩
    | call c next ih =>
        cases h with
        | call a h =>
            obtain ⟨l₁, l₂, a', rfl, h₁, h₂⟩ := ih a h
            exact ⟨_, l₂, a', rfl, .call a h₁, h₂⟩
  · rintro ⟨l₁, l₂, a, rfl, h₁, h₂⟩
    induction h₁ with
    | pure a => exact h₂
    | call a _ ih => exact .call a (ih h₂)

theorem returns_map {p : Prog κ Ans α} {f : α → β} {l : List (Sigma Ans)} {b : β} :
    Returns (f <$> p) l b ↔ ∃ a, Returns p l a ∧ b = f a := by
  rw [← bind_pure_comp, returns_bind]
  constructor
  · rintro ⟨l₁, l₂, a, rfl, h₁, h₂⟩
    obtain ⟨rfl, rfl⟩ := returns_pure.1 h₂
    exact ⟨a, by rwa [List.append_nil], rfl⟩
  · rintro ⟨a, h, rfl⟩
    exact ⟨l, [], a, (List.append_nil l).symm, h, .pure _⟩

/-! ## Among others -/

variable {σ : Type} (exec : (c : κ) → σ → Ans c → σ → Prop) (env : σ → σ → Prop)

/-- One step of a program among others. -/
inductive Step : Prog κ Ans α × σ → Prog κ Ans α × σ → Prop
  | call {c : κ} {next : Ans c → Prog κ Ans α} {s t : σ} {a : Ans c} (h : exec c s a t) :
      Step (.call c next, s) (next a, t)
  | others {p : Prog κ Ans α} {s t : σ} (h : env s t) : Step (p, s) (p, t)

/-- From the state `s`, the invariant `I` holds at all times, the program can always go on,
and `Q` holds from when it has returned. -/
def Safe (I : σ → Prop) (Q : α → σ → Prop) : Prog κ Ans α → σ → Prop
  | .pure a, s => ∀ t, Relation.ReflTransGen env s t → I t ∧ Q a t
  | .call c next, s => ∀ t, Relation.ReflTransGen env s t →
      I t ∧ (∃ a u, exec c t a u) ∧ ∀ a u, exec c t a u → (next a).Safe I Q u

namespace Safe

variable {exec env} {I : σ → Prop} {Q : α → σ → Prop} {R : β → σ → Prop}
  {p q : Prog κ Ans α} {s t : σ}

/-- A program that has returned, with an assertion that the others keep. -/
theorem pure {A : σ → Prop} {a : α} (hstable : ∀ s t, A s → env s t → A t)
    (hA : ∀ s, A s → I s ∧ Q a s) (hs : A s) : Safe exec env I Q (.pure a) s := by
  intro t ht
  refine hA t ?_
  induction ht with
  | refl => exact hs
  | tail _ h ih => exact hstable _ _ ih h

/-- A call, with an assertion that the others keep until it is made. -/
theorem call {A : σ → Prop} {c : κ} {next : Ans c → Prog κ Ans α}
    (hstable : ∀ s t, A s → env s t → A t)
    (hA : ∀ s, A s → I s ∧ (∃ a t, exec c s a t) ∧
      ∀ a t, exec c s a t → Safe exec env I Q (next a) t) (hs : A s) :
    Safe exec env I Q (.call c next) s := by
  intro t ht
  refine hA t ?_
  induction ht with
  | refl => exact hs
  | tail _ h ih => exact hstable _ _ ih h

/-- The invariant holds now. -/
theorem invariant (h : Safe exec env I Q p s) : I s := by
  cases p with
  | pure a => exact (h s .refl).1
  | call c next => exact (h s .refl).1

/-- The others do not endanger a program. -/
theorem others (h : Safe exec env I Q p s) (hst : env s t) : Safe exec env I Q p t := by
  cases p with
  | pure a => exact fun u hu ↦ h u (.head hst hu)
  | call c next => exact fun u hu ↦ h u (.head hst hu)

/-- One program after the other. -/
theorem bind {f : α → Prog κ Ans β} (h : Safe exec env I Q p s)
    (hf : ∀ a t, Q a t → Safe exec env I R (f a) t) :
    Safe exec env I R (p.bind f) s := by
  induction p generalizing s with
  | pure a => exact hf a s (h s .refl).2
  | call c next ih =>
      intro t ht
      obtain ⟨hI, hcall, hnext⟩ := h t ht
      exact ⟨hI, hcall, fun a u hu ↦ ih a (hnext a u hu)⟩

/-- A step leads from a safe program to a safe program. -/
theorem step (h : Safe exec env I Q p s) (hstep : Step exec env (p, s) (q, t)) :
    Safe exec env I Q q t := by
  cases hstep with
  | call hexec => exact (h s .refl).2.2 _ _ hexec
  | others hst => exact h.others hst

/-- **A safe program is safe in every run.** -/
theorem steps {x : Prog κ Ans α × σ} (h : Safe exec env I Q p s)
    (hrun : Relation.ReflTransGen (Step exec env) (p, s) x) :
    Safe exec env I Q x.1 x.2 := by
  induction hrun with
  | refl => exact h
  | tail _ hstep ih => exact ih.step hstep

/-- A program that has returned has kept its promise. -/
theorem returned {a : α} (h : Safe exec env I Q (.pure a) s) : Q a s := (h s .refl).2

/-- A program that has not returned can go on. -/
theorem goesOn {c : κ} {next : Ans c → Prog κ Ans α}
    (h : Safe exec env I Q (.call c next) s) : ∃ a t, exec c s a t := (h s .refl).2.1

end Safe

end Prog

end BareBones.Lib
