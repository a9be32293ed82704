import MlirInterpreter.Foundations.Prog

/-!
# Dialogues

Which calls a program may make, and how they are answered, can depend on what was called and
answered before.  A `Dialogue` says so by a state that the calls and their responses move on.  It is
stated of the calls alone, so what follows from it for a program is found without a handler:
`Prog.Follows` says that a program that is answered as promised makes allowed calls only, and how it
then returns.  It is a weakest precondition that takes the responses at their word, and
`Prog.Follows.wp_run` brings it to the runs over a handler that keeps the promises.

Two kinds of dialogues have names of their own:

* a `Protocol` allows calls by what was called before, but promises nothing: what was opened has to
  be closed, and in which order;
* an `Interface` says of every call what the client has to make sure of and what it is answered,
  whatever was called before.  `Prog.Agree` compares two programs over one: as long as they are
  answered as promised, they make the same calls, keep their side and return related results, and
  then they have the same runs (`Prog.Agree.run_eq`).
-/

set_option autoImplicit false

open Recorded

/-- The calls of an interface that are allowed, and what is promised of their responses, by a state
that both move on. -/
structure Dialogue (I : Type) (R : I → Type) (T : Type) where
  allowed : T → I → Prop
  promised : T → (i : I) → R i → Prop
  next : T → (i : I) → R i → T

namespace Prog

variable {I : Type} {R : I → Type} {S X T α β : Type} {D : Dialogue I R T}

/-- The program, begun in the state `t` and answered as promised, makes allowed calls only, and
returns as `Q` says. -/
def Follows (D : Dialogue I R T) (Q : α → T → Prop) : T → Prog I R α → Prop
  | t, .ret a => Q a t
  | t, .call i k => D.allowed t i ∧ ∀ r, D.promised t i r → Follows D Q (D.next t i r) (k r)

theorem Follows.ret {Q : α → T → Prop} {a : α} {t : T} (h : Q a t) :
    Follows D Q t (pure a : Prog I R α) := h

theorem Follows.call {Q : α → T → Prop} {i : I} {f : R i → Prog I R α} {t : T}
    (hi : D.allowed t i) (h : ∀ r, D.promised t i r → Follows D Q (D.next t i r) (f r)) :
    Follows D Q t (lift i >>= f) :=
  ⟨hi, h⟩

theorem Follows.bind {Q : β → T → Prop} {p : Prog I R α} {f : α → Prog I R β} {t : T}
    (h : Follows D (fun a t => Follows D Q t (f a)) t p) : Follows D Q t (p >>= f) := by
  induction p generalizing t with
  | ret a => exact h
  | call i k ih => exact ⟨h.1, fun r hr => ih r (h.2 r hr)⟩

theorem Follows.mono {Q Q' : α → T → Prop} {p : Prog I R α} {t : T} (h : Follows D Q t p)
    (hQ : ∀ a t, Q a t → Q' a t) : Follows D Q' t p := by
  induction p generalizing t with
  | ret a => exact hQ a t h
  | call i k ih => exact ⟨h.1, fun r hr => ih r (h.2 r hr)⟩

/-- **The rule for programs that follow a dialogue.**  If every allowed call is answered as promised
and takes a state tied to the dialogue's to one tied to the dialogue's next, a run ends as the
program says. -/
theorem Follows.wp_run {h : (i : I) → Rec S X (R i)} {C : Contract S X} {J : T → S → Prop}
    (hcall : ∀ i t s, D.allowed t i → J t s →
      wp C (h i) s fun r s' => J (D.next t i r) s' ∧ D.promised t i r)
    {Q : α → T → Prop} {p : Prog I R α} {t : T} (hp : Follows D Q t p) {s : S} (hs : J t s) :
    wp C (run h p) s fun a s' => ∃ t', Q a t' ∧ J t' s' := by
  induction p generalizing t s with
  | ret a => exact wp_pure ⟨t, hp, hs⟩
  | call i k ih =>
    refine wp_run_call (wp_mono (hcall i t s hp.1 hs) fun r s' hs' => ?_)
    exact ih r (hp.2 r hs'.2) hs'.1

end Prog

/-- The logic of a dialogue. -/
def Dialogue.logic {I T : Type} {R : I → Type} (D : Dialogue I R T) :
    MonadLogic (Prog I R) T where
  wp p t Q := p.Follows D Q t
  wp_pure := Prog.Follows.ret
  wp_bind := Prog.Follows.bind
  wp_mono := Prog.Follows.mono

/-! ## Protocols -/

/-- The calls of an interface that are allowed, by a state that the calls move on. -/
structure Protocol (I T : Type) where
  allowed : T → I → Prop
  next : T → I → T

/-- A protocol promises nothing. -/
abbrev Protocol.dialogue {I T : Type} (F : Protocol I T) (R : I → Type) : Dialogue I R T where
  allowed := F.allowed
  promised _ _ _ := True
  next t i _ := F.next t i

namespace Prog

variable {I T α : Type} {R : I → Type} {F : Protocol I T} {Q : α → T → Prop} {t : T}

/-- The program, begun in the state `t`, makes allowed calls only, and returns as `Q` says. -/
abbrev Keeps (F : Protocol I T) (Q : α → T → Prop) (t : T) (p : Prog I R α) : Prop :=
  p.Follows (F.dialogue R) Q t

theorem Keeps.call {i : I} {f : R i → Prog I R α} (hi : F.allowed t i)
    (h : ∀ r, Keeps F Q (F.next t i) (f r)) : Keeps F Q t (lift i >>= f) :=
  Follows.call hi fun r _ => h r

/-- The rule for programs that keep a protocol. -/
theorem Keeps.wp_run {S X : Type} {h : (i : I) → Rec S X (R i)} {C : Contract S X}
    {J : T → S → Prop}
    (hcall : ∀ i t s, F.allowed t i → J t s → wp C (h i) s fun _ s' => J (F.next t i) s')
    {p : Prog I R α} (hp : Keeps F Q t p) {s : S} (hs : J t s) :
    wp C (run h p) s fun a s' => ∃ t', Q a t' ∧ J t' s' :=
  Follows.wp_run (fun i t s hi hs => wp_mono (hcall i t s hi hs) fun _ _ h => ⟨h, trivial⟩) hp hs

end Prog

/-! ## Interfaces -/

/-- What the calls of an interface require of their arguments, and what they promise of the
responses. -/
structure Interface (I : Type) (R : I → Type) where
  pre : I → Prop
  post : (i : I) → R i → Prop

/-- What was called before does not matter. -/
abbrev Interface.dialogue {I : Type} {R : I → Type} (F : Interface I R) : Dialogue I R Unit where
  allowed _ := F.pre
  promised _ := F.post
  next _ _ _ := ()

namespace Prog

variable {I : Type} {R : I → Type} {S X α β γ δ : Type} {F : Interface I R}

/-- The program keeps to the interface, and returns what `ok` accepts. -/
abbrev Obeys (F : Interface I R) (ok : α → Prop) (p : Prog I R α) : Prop :=
  p.Follows F.dialogue (fun a _ => ok a) ()

/-- Two programs make the same calls, keep to the interface and return what `rel` relates. -/
def Agree (F : Interface I R) (rel : α → β → Prop) : Prog I R α → Prog I R β → Prop
  | .ret a, .ret b => rel a b
  | .call i k, .call j l => ∃ h : i = j, F.pre i ∧ ∀ r, F.post i r → Agree F rel (k r) (l (h ▸ r))
  | _, _ => False

section Rules

variable {ok ok' : α → Prop} {rel rel' : α → β → Prop}

theorem Obeys.bind {okβ : β → Prop} {p : Prog I R α} {f : α → Prog I R β} (hp : Obeys F ok p)
    (hf : ∀ a, ok a → Obeys F okβ (f a)) : Obeys F okβ (p >>= f) :=
  Follows.bind (hp.mono fun a _ ha => hf a ha)

theorem Agree.ret {a : α} {b : β} (h : rel a b) :
    Agree F rel (pure a : Prog I R α) (pure b : Prog I R β) := h

theorem Agree.call {i : I} {f : R i → Prog I R α} {g : R i → Prog I R β} (hi : F.pre i)
    (h : ∀ r, F.post i r → Agree F rel (f r) (g r)) : Agree F rel (lift i >>= f) (lift i >>= g) :=
  ⟨rfl, hi, h⟩

theorem Agree.bind {relβ : γ → δ → Prop} {p : Prog I R α} {q : Prog I R β} {f : α → Prog I R γ}
    {g : β → Prog I R δ} (hpq : Agree F rel p q)
    (hfg : ∀ a b, rel a b → Agree F relβ (f a) (g b)) : Agree F relβ (p >>= f) (q >>= g) := by
  induction p generalizing q with
  | ret a =>
    cases q with
    | ret b => exact hfg a b hpq
    | call j l => exact hpq.elim
  | call i k ih =>
    cases q with
    | ret b => exact hpq.elim
    | call j l =>
      obtain ⟨rfl, hi, h⟩ := hpq
      exact ⟨rfl, hi, fun r hr => ih r (h r hr)⟩

/-- A program that keeps to the interface agrees with itself. -/
theorem Obeys.agree {p : Prog I R α} (hp : Obeys F ok p) :
    Agree F (fun a b => a = b ∧ ok a) p p := by
  induction p with
  | ret a => exact ⟨rfl, hp⟩
  | call i k ih => exact ⟨rfl, hp.1, fun r hr => ih r (hp.2 r hr)⟩

/-- The same program first. -/
theorem Obeys.agree_bind {p : Prog I R α} (hp : Obeys F ok p) {relβ : γ → δ → Prop}
    {f : α → Prog I R γ} {g : α → Prog I R δ} (h : ∀ a, ok a → Agree F relβ (f a) (g a)) :
    Agree F relβ (p >>= f) (p >>= g) :=
  hp.agree.bind fun a _ hab => hab.1 ▸ h a hab.2

/-- What programs that agree return, the second one returns. -/
theorem Agree.obeys {p : Prog I R α} {q : Prog I R β} (h : Agree F rel p q) {okβ : β → Prop}
    (hok : ∀ a b, rel a b → okβ b) : Obeys F okβ q := by
  induction p generalizing q with
  | ret a =>
    cases q with
    | ret b => exact hok a b h
    | call j l => exact h.elim
  | call i k ih =>
    cases q with
    | ret b => exact h.elim
    | call j l =>
      obtain ⟨rfl, hi, h⟩ := h
      exact ⟨hi, fun r hr => ih r (h r hr)⟩

end Rules

section Runs

variable {h : (i : I) → Rec S X (R i)} {C : Contract S X} {J : S → Prop} {K : S → S → Prop}

/-- **The rule for programs that keep to an interface.**  If every call answers as promised and
takes a state satisfying `J` to one that does and is related to the first by the preorder `K`, a run
does too. -/
theorem Obeys.wp_run (hrefl : ∀ s, K s s) (htrans : ∀ a b c, K a b → K b c → K a c)
    (hcall : ∀ i s, F.pre i → J s → wp C (h i) s fun r s' => J s' ∧ K s s' ∧ F.post i r)
    {ok : α → Prop} {p : Prog I R α} (hp : Obeys F ok p) {s : S} (hs : J s) :
    wp C (run h p) s fun a s' => J s' ∧ K s s' ∧ ok a := by
  have hrun := Follows.wp_run (J := fun _ s' => J s' ∧ K s s') (fun i _ t hi ht => wp_mono
    (hcall i t hi ht.1) fun r u hu => ⟨⟨hu.1, htrans _ _ _ ht.2 hu.2.1⟩, hu.2.2⟩) hp ⟨hs, hrefl s⟩
  refine wp_mono hrun fun a s' hs' => ?_
  obtain ⟨_, ha, hJ, hK⟩ := hs'
  exact ⟨hJ, hK, ha⟩

/-- **Programs that agree have the same runs**, from every state satisfying the invariant of the
handler, and with results that `f` translates. -/
theorem Agree.run_eq (hcall : ∀ i s, F.pre i → J s → wp C (h i) s fun r s' => J s' ∧ F.post i r)
    {rel : α → β → Prop} {f : β → α} (hf : ∀ a b, rel a b → a = f b) {p : Prog I R α}
    {q : Prog I R β} (hpq : Agree F rel p q) {s : S} (hs : J s)
    (hrely : ∀ t ∈ (run h q s).visited, C.rely t) : run h p s = (f <$> run h q) s := by
  induction p generalizing q s with
  | ret a =>
    cases q with
    | ret b => rw [hf a b hpq]; rfl
    | call j l => exact hpq.elim
  | call i k ih =>
    cases q with
    | ret b => exact hpq.elim
    | call j l =>
      obtain ⟨rfl, hi, hkl⟩ := hpq
      rw [run_call, run_call, map_bind]
      rw [run_call] at hrely
      cases ho : (h i s).outcome with
      | error x => rw [Rec.bind_of_error _ ho, Rec.bind_of_error _ ho]
      | ok r =>
        obtain ⟨r, s'⟩ := r
        rw [Rec.bind_of_ok _ ho] at hrely
        obtain ⟨-, hpost, -⟩ := hcall i s hi hs fun t ht => hrely t (List.mem_append_left _ ht)
        obtain ⟨hs', hr⟩ := hpost r s' ho
        rw [Rec.bind_of_ok _ ho, Rec.bind_of_ok _ ho,
          ih r (hkl r hr) hs' fun t ht => hrely t (List.mem_append_right _ ht)]

end Runs

end Prog
