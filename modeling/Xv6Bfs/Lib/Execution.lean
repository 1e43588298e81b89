import Mathlib.Logic.Basic
import Mathlib.Data.List.Basic

namespace Xv6Bfs.Lib.Execution

variable {A B E S S' T T' : Type} {step : A → S → Except E S} {C C' : A → S → Prop} {I : S → Prop}
  {l l₁ l₂ : List A} {s s' : S}

@[simp] theorem ok_bind (s : S) (f : S → Except E T) : (Except.ok s >>= f) = f s := rfl

@[simp] theorem error_bind (e : E) (f : S → Except E T) :
    ((Except.error e : Except E S) >>= f) = .error e := rfl

theorem bind_eq_ok {x : Except E S} {f : S → Except E T} {t : T} :
    x >>= f = .ok t ↔ ∃ s, x = .ok s ∧ f s = .ok t := by
  cases x <;> simp

theorem mapError_eq_ok {E' : Type} {f : E → E'} {x : Except E S} :
    x.mapError f = .ok s ↔ x = .ok s := by
  cases x <;> simp [Except.mapError]

/-- Carry out a list of actions one after the other, up to the first failure. -/
def exec (step : A → S → Except E S) : List A → S → Except E S
  | [], s => .ok s
  | a :: l, s => step a s >>= exec step l

@[simp] theorem exec_nil (step : A → S → Except E S) (s : S) : exec step [] s = .ok s := rfl

@[simp] theorem exec_cons (step : A → S → Except E S) (a : A) (l : List A) (s : S) :
    exec step (a :: l) s = step a s >>= exec step l := rfl

theorem exec_append (step : A → S → Except E S) (l₁ l₂ : List A) (s : S) :
    exec step (l₁ ++ l₂) s = exec step l₁ s >>= exec step l₂ := by
  induction l₁ generalizing s with
  | nil => rfl
  | cons a l₁ ih =>
    simp only [List.cons_append, exec_cons]
    cases step a s with
    | error e => rfl
    | ok s' => exact ih s'

theorem exec_map (step : B → S → Except E S) (f : A → B) (l : List A) (s : S) :
    exec step (l.map f) s = exec (fun a ↦ step (f a)) l s := by
  induction l generalizing s with
  | nil => rfl
  | cons a l ih =>
    simp only [List.map_cons, exec_cons]
    cases step (f a) s with
    | error e => rfl
    | ok s' => exact ih s'

/-- The condition `C` holds of every action of the list in the state it is taken in. -/
def Meets (step : A → S → Except E S) (C : A → S → Prop) : List A → S → Prop
  | [], _ => True
  | a :: l, s => C a s ∧ ∀ s', step a s = .ok s' → Meets step C l s'

instance Meets.decidable (step : A → S → Except E S) (C : A → S → Prop)
    [∀ a s, Decidable (C a s)] : ∀ l s, Decidable (Meets step C l s)
  | [], _ => isTrue trivial
  | a :: l, s =>
    match h : step a s with
    | .ok m =>
      have := Meets.decidable step C l m
      decidable_of_iff (C a s ∧ Meets step C l m) (by simp [Meets, h])
    | .error e => decidable_of_iff (C a s) (by simp [Meets, h])

theorem Meets.append (h : Meets step C (l₁ ++ l₂) s) (he : exec step l₁ s = .ok s') :
    Meets step C l₁ s ∧ Meets step C l₂ s' := by
  induction l₁ generalizing s with
  | nil =>
    cases he
    exact ⟨trivial, h⟩
  | cons a l₁ ih =>
    obtain ⟨m, hm, he⟩ := bind_eq_ok.mp he
    refine ⟨⟨h.1, fun m' hm' ↦ ?_⟩, (ih (h.2 m hm) he).2⟩
    cases hm.symm.trans hm'
    exact (ih (h.2 m hm) he).1

theorem Meets.mono (h : Meets step C l s) (hc : ∀ a s, C a s → C' a s) : Meets step C' l s := by
  induction l generalizing s with
  | nil => trivial
  | cons a l ih => exact ⟨hc a s h.1, fun s' hs ↦ ih (h.2 s' hs)⟩

theorem meets_true (step : A → S → Except E S) (l : List A) (s : S) :
    Meets step (fun _ _ ↦ True) l s := by
  induction l generalizing s with
  | nil => trivial
  | cons a l ih => exact ⟨trivial, fun s' _ ↦ ih s'⟩

theorem exec_invariant_of_meets (hstep : ∀ a s s', I s → C a s → step a s = .ok s' → I s')
    (hs : I s) (hc : Meets step C l s) (he : exec step l s = .ok s') : I s' := by
  induction l generalizing s with
  | nil => cases he; exact hs
  | cons a l ih =>
    obtain ⟨m, hm, he⟩ := bind_eq_ok.mp he
    exact ih (hstep a s m hs hc.1 hm) (hc.2 m hm) he

theorem exec_invariant (hstep : ∀ a s s', I s → step a s = .ok s' → I s') (hs : I s)
    (he : exec step l s = .ok s') : I s' :=
  exec_invariant_of_meets (fun a s s' hs _ he ↦ hstep a s s' hs he) hs (meets_true step l s) he

theorem exec_ne_error_of_meets {e : E} (hstep : ∀ a s s', I s → C a s → step a s = .ok s' → I s')
    (herr : ∀ a s, I s → C a s → step a s ≠ .error e) (hs : I s) (hc : Meets step C l s) :
    exec step l s ≠ .error e := by
  induction l generalizing s with
  | nil => nofun
  | cons a l ih =>
    rw [exec_cons]
    cases hm : step a s with
    | error e' =>
      intro he
      cases he
      exact herr a s hs hc.1 hm
    | ok m => exact ih (hstep a s m hs hc.1 hm) (hc.2 m hm)

/-- A result satisfies `post`, and a failure is one of the errors in `err`. -/
def Ensures (post : S → Prop) (err : E → Prop) : Except E S → Prop
  | .ok s => post s
  | .error e => err e

instance {post : S → Prop} {err : E → Prop} [DecidablePred post] [DecidablePred err]
    (x : Except E S) : Decidable (Ensures post err x) :=
  match x with
  | .ok s => inferInstanceAs (Decidable (post s))
  | .error e => inferInstanceAs (Decidable (err e))

theorem ensures_true (x : Except E S) : Ensures (fun _ ↦ True) (fun _ ↦ True) x := by
  cases x <;> trivial

namespace Ensures

variable {post : S → Prop} {err : E → Prop} {x : Except E S}

theorem bind {post' : T → Prop} {f : S → Except E T} (h : Ensures post err x)
    (hf : ∀ s, post s → Ensures post' err (f s)) : Ensures post' err (x >>= f) := by
  cases x with
  | error e => exact h
  | ok s => exact hf s h

theorem through (Q : S → Prop) {post' : T → Prop} {f : S → Except E T} (h : Ensures Q err x)
    (hf : ∀ s, Q s → Ensures post' err (f s)) : Ensures post' err (x >>= f) :=
  h.bind hf

theorem mono {post' : S → Prop} (h : Ensures post err x) (hp : ∀ s, post s → post' s) :
    Ensures post' err x := by
  cases x with
  | error e => exact h
  | ok s => exact hp s h

theorem weaken {err' : E → Prop} (h : Ensures post err x) (he : ∀ e, err e → err' e) :
    Ensures post err' x := by
  cases x with
  | error e => exact he e h
  | ok s => exact h

theorem anyError (h : Ensures post err x) : Ensures post (fun _ ↦ True) x := h.weaken fun _ _ ↦ trivial

theorem mapError {E' : Type} {f : E → E'} {err' : E' → Prop} (h : Ensures post err x)
    (he : ∀ e, err e → err' (f e)) : Ensures post err' (x.mapError f) := by
  cases x with
  | error e => exact he e h
  | ok s => exact h

theorem map_iff {f : S → T} {post' : T → Prop} :
    Ensures post' err (f <$> x) ↔ Ensures (fun s ↦ post' (f s)) err x := by
  cases x <;> exact Iff.rfl

theorem and {post' : S → Prop} {err' : E → Prop} (h : Ensures post err x)
    (h' : Ensures post' err' x) : Ensures (fun s ↦ post s ∧ post' s) (fun e ↦ err e ∧ err' e) x := by
  cases x with
  | error e => exact ⟨h, h'⟩
  | ok s => exact ⟨h, h'⟩

theorem of_ok (h : Ensures post err x) (hx : x = .ok s) : post s := by
  rw [hx] at h
  exact h

theorem of_error {e : E} (h : Ensures post err x) (hx : x = .error e) : err e := by
  rw [hx] at h
  exact h

theorem exists_ok (h : Ensures post (fun _ ↦ False) x) : ∃ s, x = .ok s ∧ post s := by
  cases x with
  | error e => exact h.elim
  | ok s => exact ⟨s, rfl, h⟩

theorem exists_ok_and {p : S → Prop} (post : S → Prop) (h : Ensures post (fun _ ↦ False) x)
    (hp : ∀ s, x = .ok s → post s → p s) : ∃ s, x = .ok s ∧ p s := by
  obtain ⟨s, hs, hpost⟩ := h.exists_ok
  exact ⟨s, hs, hp s hs hpost⟩

theorem exists_error (h : Ensures (fun _ ↦ False) err x) : ∃ e, x = .error e ∧ err e := by
  cases x with
  | error e => exact ⟨e, rfl, h⟩
  | ok s => exact h.elim

theorem exec_prefix (I : List A → S → Prop)
    (hstep : ∀ l₁ a l₂, l = l₁ ++ a :: l₂ → ∀ s, I l₁ s → Ensures (I (l₁ ++ [a])) err (step a s))
    (hs : I [] s) : Ensures (I l) err (Execution.exec step l s) := by
  suffices hrest : ∀ l₂ l₁ s, l = l₁ ++ l₂ → I l₁ s →
      Ensures (I l) err (Execution.exec step l₂ s) from hrest l [] s rfl hs
  intro l₂
  induction l₂ with
  | nil =>
    intro l₁ s hl hs
    rw [List.append_nil] at hl
    exact hl ▸ hs
  | cons a l₂ ih =>
    intro l₁ s hl hs
    exact (hstep l₁ a l₂ hl s hs).bind (fun s' hs' ↦ ih (l₁ ++ [a]) s' (by simp [hl]) hs')

theorem exec (I : S → Prop) (done : A → S → Prop)
    (hstep : ∀ a s, I s → Ensures (fun s' ↦ I s' ∧ done a s' ∧ ∀ b, done b s → done b s') err
      (step a s)) (l : List A) (hs : I s) :
    Ensures (fun s' ↦ I s' ∧ (∀ a ∈ l, done a s') ∧ ∀ b, done b s → done b s') err
      (Execution.exec step l s) := by
  induction l generalizing s with
  | nil => exact ⟨hs, by simp, fun _ h ↦ h⟩
  | cons a l ih =>
    refine (hstep a s hs).bind (fun s' hs' ↦ (ih hs'.1).mono (fun s'' hs'' ↦ ?_))
    refine ⟨hs''.1, ?_, fun b hb ↦ hs''.2.2 b (hs'.2.2 b hb)⟩
    intro b hb
    rcases List.mem_cons.mp hb with rfl | hb
    · exact hs''.2.2 _ hs'.2.1
    · exact hs''.2.1 b hb

end Ensures

/-- The left computation does what the right one does, unless it is lost to one of the
errors in `lost`. Where the right one ends in one of the errors in `undef`, anything goes. -/
inductive Simulates (lost undef : E → Prop) (rel : S → T → Prop) : Except E S → Except E T → Prop
  | ok {s : S} {t : T} : rel s t → Simulates lost undef rel (.ok s) (.ok t)
  | error (e : E) : Simulates lost undef rel (.error e) (.error e)
  | lost {e : E} (y : Except E T) : lost e → Simulates lost undef rel (.error e) y
  | undef {e : E} (x : Except E S) : undef e → Simulates lost undef rel x (.error e)

namespace Simulates

variable {lost undef : E → Prop} {rel : S → T → Prop} {rel' : S' → T' → Prop}

theorem bind {x : Except E S} {y : Except E T} {f : S → Except E S'} {g : T → Except E T'}
    (h : Simulates lost undef rel x y)
    (hf : ∀ s t, rel s t → Simulates lost undef rel' (f s) (g t)) :
    Simulates lost undef rel' (x >>= f) (y >>= g) := by
  cases h with
  | ok h => exact hf _ _ h
  | error e => exact .error e
  | lost y h => exact .lost _ h
  | undef x h => exact .undef _ h

theorem ite {c : Prop} [Decidable c] {x x' : Except E S} {y y' : Except E T}
    (h : c → Simulates lost undef rel x y) (h' : ¬ c → Simulates lost undef rel x' y') :
    Simulates lost undef rel (if c then x else x') (if c then y else y') := by
  by_cases hc : c
  · simpa only [if_pos hc] using h hc
  · simpa only [if_neg hc] using h' hc

theorem trans {rel' : T → T' → Prop} {x : Except E S} {y : Except E T} {z : Except E T'}
    (hne : ∀ e, undef e → ¬ lost e) (h : Simulates lost undef rel x y)
    (h' : Simulates lost undef rel' y z) :
    Simulates lost undef (fun s u ↦ ∃ t, rel s t ∧ rel' t u) x z := by
  cases h with
  | ok h =>
    cases h' with
    | ok h' => exact .ok ⟨_, h, h'⟩
    | undef _ hu => exact .undef _ hu
  | error e =>
    cases h' with
    | error => exact .error e
    | lost _ hl => exact .lost _ hl
    | undef _ hu => exact .undef _ hu
  | lost _ hl => exact .lost _ hl
  | undef _ hu =>
    cases h' with
    | error => exact .undef _ hu
    | lost _ hl => exact absurd hl (hne _ hu)
    | undef _ hu => exact .undef _ hu

theorem ensures {post : T → Prop} {err : E → Prop} {x : Except E S} {y : Except E T}
    (h : Simulates lost undef rel x y) (hy : Ensures post err y)
    (hu : ∀ e, undef e → ¬ err e) :
    Ensures (fun s ↦ ∃ t, rel s t ∧ post t) (fun e ↦ lost e ∨ err e) x := by
  cases h with
  | ok h => exact ⟨_, h, hy⟩
  | error e => exact .inr hy
  | lost y h => exact .inl h
  | undef x h => exact absurd hy (hu _ h)

theorem exec {step' : A → T → Except E T}
    (hstep : ∀ a s t, rel s t → Simulates lost undef rel (step a s) (step' a t))
    (l : List A) {t : T} (h : rel s t) :
    Simulates lost undef rel (Execution.exec step l s) (Execution.exec step' l t) := by
  induction l generalizing s t with
  | nil => exact .ok h
  | cons a l ih => exact (hstep a s t h).bind (fun s' t' h' ↦ ih h')

end Simulates

end Xv6Bfs.Lib.Execution
