import MlirInterpreter.Foundations.Prog

/-!
# Two computations in lockstep

`Together Q w m m' s t` says that a run of `m` from `s` and one of `m'` from `t` stop for the same
reason, or both end, with values and states that `Q` relates.  What corresponds in the two runs is
the *world* `w`, which grows in the course of the runs: `Q` is about the world they end in.

`Prog.Related` is the same for programs over an interface, by what they ask: related programs ask
for related things, and go on alike for related responses, in whatever later world they get them.
`Prog.Related.run` is the rule that takes it to runs, given handlers that answer alike.
-/

set_option autoImplicit false

namespace Recorded

variable {W : Type} [Preorder W] {S T X α β γ δ : Type}

/-- The runs of `m` from `s` and of `m'` from `t` stop for the same reason or end alike. -/
inductive Together (Q : W → α → β → S → T → Prop) (w : W) (m : Rec S X α) (m' : Rec T X β) (s : S)
    (t : T) : Prop
  | stop {x : X} (h : (m s).outcome = .error x) (h' : (m' t).outcome = .error x)
  | ends {w' : W} {a : α} {b : β} {s' : S} {t' : T} (h : (m s).outcome = .ok (a, s'))
      (h' : (m' t).outcome = .ok (b, t')) (hw : w ≤ w') (hq : Q w' a b s' t')

section Rules

variable {Q : W → α → β → S → T → Prop} {Q' : W → γ → δ → S → T → Prop} {w : W} {m : Rec S X α}
  {m' : Rec T X β} {s : S} {t : T}

theorem Together.pure {a : α} {b : β} (h : Q w a b s t) :
    Together Q w (Pure.pure a : Rec S X α) (Pure.pure b : Rec T X β) s t :=
  .ends rfl rfl le_rfl h

theorem Together.halt (x : X) :
    Together Q w (Rec.stop x : Rec S X α) (Rec.stop x : Rec T X β) s t :=
  .stop rfl rfl

theorem Together.write {Q : W → Unit → Unit → S → T → Prop} {w' : W} {f : S → S} {g : T → T}
    (hw : w ≤ w') (h : Q w' () () (f s) (g t)) :
    Together Q w (Rec.write f : Rec S X Unit) (Rec.write g : Rec T X Unit) s t :=
  .ends rfl rfl hw h

theorem Together.mono {Q₂ : W → α → β → S → T → Prop} (h : Together Q w m m' s t)
    (hQ : ∀ w' a b s' t', w ≤ w' → Q w' a b s' t' → Q₂ w' a b s' t') :
    Together Q₂ w m m' s t := by
  cases h with
  | stop h h' => exact .stop h h'
  | ends h h' hw hq => exact .ends h h' hw (hQ _ _ _ _ _ hw hq)

/-- The same, with other worlds. -/
theorem Together.world {V : Type} [Preorder V] {Q₂ : V → α → β → S → T → Prop} {v : V}
    (h : Together Q w m m' s t)
    (hQ : ∀ w' a b s' t', w ≤ w' → Q w' a b s' t' → ∃ v', v ≤ v' ∧ Q₂ v' a b s' t') :
    Together Q₂ v m m' s t := by
  cases h with
  | stop h h' => exact .stop h h'
  | ends h h' hw hq =>
    obtain ⟨v', hv, hq'⟩ := hQ _ _ _ _ _ hw hq
    exact .ends h h' hv hq'

theorem Together.bind {f : α → Rec S X γ} {g : β → Rec T X δ} (hm : Together Q w m m' s t)
    (hf : ∀ w' a b s' t', w ≤ w' → Q w' a b s' t' → Together Q' w' (f a) (g b) s' t') :
    Together Q' w (m >>= f) (m' >>= g) s t := by
  cases hm with
  | stop h h' =>
    exact .stop (by rw [Rec.bind_of_error f h]) (by rw [Rec.bind_of_error g h'])
  | ends h h' hw hq =>
    cases hf _ _ _ _ _ hw hq with
    | stop hs ht =>
      exact .stop (by rw [Rec.bind_of_ok f h]; exact hs) (by rw [Rec.bind_of_ok g h']; exact ht)
    | ends hs ht hw' hq' =>
      exact .ends (by rw [Rec.bind_of_ok f h]; exact hs) (by rw [Rec.bind_of_ok g h']; exact ht)
        (hw.trans hw') hq'

/-- Both computations read their states. -/
theorem Together.read {f : S → Rec S X γ} {g : T → Rec T X δ} (h : Together Q' w (f s) (g t) s t) :
    Together Q' w (Rec.read >>= f) (Rec.read >>= g) s t := by
  cases h with
  | stop h h' => exact .stop h h'
  | ends h h' hw hq => exact .ends h h' hw hq

end Rules

end Recorded

open Recorded

/-- What corresponds to each other, in a world: the calls of an interface, and their responses. -/
structure Coupling (W I : Type) (R : I → Type) where
  call : W → I → I → Prop
  resp : W → (i j : I) → R i → R j → Prop

namespace Prog

variable {W : Type} [Preorder W] {I : Type} {R : I → Type} {S T X α β γ δ : Type}
  {C : Coupling W I R}

/-- The programs ask for corresponding things, and go on alike for corresponding responses. -/
inductive Related (C : Coupling W I R) (Q : W → α → β → Prop) :
    W → Prog I R α → Prog I R β → Prop
  | ret {w : W} {a : α} {b : β} (h : Q w a b) : Related C Q w (.ret a) (.ret b)
  | call {w : W} {i j : I} {k : R i → Prog I R α} {l : R j → Prog I R β} (h : C.call w i j)
      (hk : ∀ w' r r', w ≤ w' → C.resp w' i j r r' → Related C Q w' (k r) (l r')) :
      Related C Q w (.call i k) (.call j l)

section Rules

variable {Q : W → α → β → Prop} {Q' : W → γ → δ → Prop} {w : W} {p : Prog I R α} {p' : Prog I R β}

theorem Related.pure {a : α} {b : β} (h : Q w a b) :
    Related C Q w (Pure.pure a : Prog I R α) (Pure.pure b : Prog I R β) := .ret h

theorem Related.bind {f : α → Prog I R γ} {g : β → Prog I R δ} (hp : Related C Q w p p')
    (hf : ∀ w' a b, w ≤ w' → Q w' a b → Related C Q' w' (f a) (g b)) :
    Related C Q' w (p >>= f) (p' >>= g) := by
  induction hp with
  | ret h => exact hf _ _ _ le_rfl h
  | call h _ ih =>
    exact .call h fun w' r r' hw hr => ih w' r r' hw hr fun w'' a b hw' => hf w'' a b (hw.trans hw')

/-- A call, and what is done with the response. -/
theorem Related.lift_bind {i j : I} {f : R i → Prog I R γ} {g : R j → Prog I R δ}
    (h : C.call w i j)
    (hf : ∀ w' r r', w ≤ w' → C.resp w' i j r r' → Related C Q' w' (f r) (g r')) :
    Related C Q' w (Prog.lift i >>= f) (Prog.lift j >>= g) := .call h hf

/-- **Related programs run alike** if their handlers answer alike. -/
theorem Related.run {K : W → S → T → Prop} {h : (i : I) → Rec S X (R i)}
    {h' : (i : I) → Rec T X (R i)}
    (hcall : ∀ w i j s t, C.call w i j → K w s t →
      Together (fun w' r r' s' t' => C.resp w' i j r r' ∧ K w' s' t') w (h i) (h' j) s t)
    (hp : Related C Q w p p') {s : S} {t : T} (hK : K w s t) :
    Together (fun w' a b s' t' => Q w' a b ∧ K w' s' t') w (p.run h) (p'.run h') s t := by
  induction hp generalizing s t with
  | ret hq => exact .pure ⟨hq, hK⟩
  | call hi _ ih =>
    exact (hcall _ _ _ s t hi hK).bind fun w' r r' s' t' hw hr => ih w' r r' hw hr.1 hr.2

end Rules

end Prog
