import MlirInterpreter.Foundations.Prog

/-!
# Computations that do not look

`Insensitive R good m` says that a computation hardly looks at what `R`-related states differ in: if
a run of `m` ends in a state that is `good`, then it started in a good one, and from every state
related to its start it ends with the same value, in a state related to its end.

Where a computation does look, its runs may part, as long as a run that parted does not end in a
good state.  Carrying `good` backwards along a run is what makes the notion compose.
-/

set_option autoImplicit false

namespace Recorded

variable {S X α β : Type}

/-- From `s` and from related states `m` ends alike, if it ends in a good state from `s`. -/
def InsensitiveAt (R : S → S → Prop) (good : S → Prop) (m : Rec S X α) (s : S) : Prop :=
  ∀ a s', (m s).outcome = .ok (a, s') → good s' →
    good s ∧ ∀ t, R s t → ∃ t', (m t).outcome = .ok (a, t') ∧ R s' t'

/-- From related states `m` ends alike, if it ends in a good state. -/
def Insensitive (R : S → S → Prop) (good : S → Prop) (m : Rec S X α) : Prop :=
  ∀ s, InsensitiveAt R good m s

section Rules

variable {R : S → S → Prop} {good : S → Prop} {s : S}

theorem InsensitiveAt.pure (a : α) : InsensitiveAt R good (Pure.pure a : Rec S X α) s := by
  intro b s' hb hs'
  simp only [Rec.pure_apply, Except.ok.injEq, Prod.mk.injEq] at hb
  obtain ⟨rfl, rfl⟩ := hb
  exact ⟨hs', fun t ht => ⟨t, rfl, ht⟩⟩

theorem InsensitiveAt.stop (x : X) : InsensitiveAt R good (Rec.stop x : Rec S X α) s := by
  intro b s' hb
  simp [Rec.stop] at hb

theorem InsensitiveAt.write {f : S → S} (hgood : good (f s) → good s)
    (hR : ∀ t, R s t → R (f s) (f t)) :
    InsensitiveAt R good (Rec.write f : Rec S X Unit) s := by
  intro b s' hb hs'
  simp only [Rec.write, Except.ok.injEq, Prod.mk.injEq] at hb
  obtain ⟨-, rfl⟩ := hb
  exact ⟨hgood hs', fun t ht => ⟨f t, rfl, hR t ht⟩⟩

theorem InsensitiveAt.bind {m : Rec S X α} {f : α → Rec S X β} (hm : InsensitiveAt R good m s)
    (hf : ∀ a s', InsensitiveAt R good (f a) s') : InsensitiveAt R good (m >>= f) s := by
  intro b s' hb hs'
  cases ho : (m s).outcome with
  | error x => simp [Rec.bind_of_error f ho] at hb
  | ok p =>
    obtain ⟨a, s₁⟩ := p
    rw [Rec.bind_of_ok f ho] at hb
    obtain ⟨hgood, hend⟩ := hf a s₁ b s' hb hs'
    obtain ⟨hs, hmid⟩ := hm a s₁ ho hgood
    refine ⟨hs, fun t ht => ?_⟩
    obtain ⟨t₁, ht₁, hR₁⟩ := hmid t ht
    obtain ⟨t', ht', hR'⟩ := hend t₁ hR₁
    exact ⟨t', by rw [Rec.bind_of_ok f ht₁]; exact ht', hR'⟩

/-- Reading a state, and going on in a way that related states do not change. -/
theorem InsensitiveAt.read_bind {f : S → Rec S X β} (hf : InsensitiveAt R good (f s) s)
    (hsame : ∀ t, R s t → f t = f s) : InsensitiveAt R good (Rec.read >>= f) s := by
  have hread : ∀ t, (Rec.read >>= f) t = f t t := fun _ => rfl
  intro b s' hb hs'
  rw [hread] at hb
  obtain ⟨hs, hend⟩ := hf b s' hb hs'
  refine ⟨hs, fun t ht => ?_⟩
  rw [hread, hsame t ht]
  exact hend t ht

theorem Insensitive.pure (a : α) : Insensitive R good (Pure.pure a : Rec S X α) :=
  fun _ => .pure a

theorem Insensitive.stop (x : X) : Insensitive R good (Rec.stop x : Rec S X α) := fun _ => .stop x

theorem Insensitive.write {f : S → S} (hgood : ∀ s, good (f s) → good s)
    (hR : ∀ s t, R s t → R (f s) (f t)) : Insensitive R good (Rec.write f : Rec S X Unit) :=
  fun s => .write (hgood s) (hR s)

theorem Insensitive.bind {m : Rec S X α} {f : α → Rec S X β} (hm : Insensitive R good m)
    (hf : ∀ a, Insensitive R good (f a)) : Insensitive R good (m >>= f) :=
  fun s => (hm s).bind fun a s' => hf a s'

theorem Insensitive.read_bind {f : S → Rec S X β} (hf : ∀ s, InsensitiveAt R good (f s) s)
    (hsame : ∀ s t, R s t → f t = f s) : Insensitive R good (Rec.read >>= f) :=
  fun s => .read_bind (hf s) (hsame s)

/-- Every program is as insensitive as its handler. -/
theorem Insensitive.run {I : Type} {Resp : I → Type} {h : (i : I) → Rec S X (Resp i)}
    (hcall : ∀ i, Insensitive R good (h i)) (p : Prog I Resp α) :
    Insensitive R good (Prog.run h p) := by
  induction p with
  | ret a => exact .pure a
  | call i k ih => exact (hcall i).bind ih

end Rules

end Recorded
