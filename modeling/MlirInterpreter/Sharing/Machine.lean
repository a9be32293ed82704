import Mathlib.Data.Finset.Insert
import Mathlib.Data.List.Infix
import Mathlib.Logic.Relation

/-!
# Computing nodes of a graph on a budget

A machine that computes the nodes of a graph on demand.  A node is computed from other nodes, its
`needs`.  It has a key, which is made of these, and its value is kept under its key: nodes with
equal keys share one entry.

* Computing a node costs a step.  Finding its entry is free, but nodes may have to be computed for
  it: the bucket of the node's hash is scanned, and a candidate can be compared only when the
  candidate's needs are computed too.  A comparison that cannot be completed is skipped.
* A node that is asked for while it is being computed is answered with a cycle, and one that cannot
  be paid for with exhaustion.
* Within one run, a node that was computed is memoized.

`Run` is the evaluation relation.  What every run keeps is in this module.
-/

set_option autoImplicit false

namespace MlirInterpreter.Sharing

/-- Nodes that are computed from each other. -/
structure Graph (α κ : Type) where
  /-- The nodes that the key of a node is made of, and that its value is computed from, in order. -/
  needs : α → List α
  hash : α → κ
  /-- Two nodes whose keys have to be looked at to tell them apart. -/
  comparable : α → α → Prop
  /-- Two nodes with equal keys. -/
  alike : α → α → Prop
  /-- The node has a value that is kept. -/
  known : α → Bool

/-- Equal keys are keys that compare equal: an equivalence relation, which hashes and what is kept
respect. -/
structure Graph.Lawful {α κ : Type} (G : Graph α κ) : Prop where
  refl : ∀ x, G.alike x x
  symm : ∀ x y, G.alike x y → G.alike y x
  trans : ∀ x y z, G.alike x y → G.alike y z → G.alike x z
  comparable : ∀ x y, G.alike x y → G.comparable x y
  hash : ∀ x y, G.alike x y → G.hash y = G.hash x
  known : ∀ x y, G.alike x y → G.known x = G.known y

/-- What a run writes. -/
structure State (α : Type) where
  memo : Set α
  /-- The nodes that entries were made for, oldest first. -/
  entries : List α
  /-- The nodes a step was paid for, most recent first. -/
  evaluated : List α
  remaining : ℕ

/-- What the machine is asked to do. -/
inductive Task (α : Type)
  | ask (x : α)
  | askAll (l : List α)
  /-- Look for the entry of `x` in its bucket, from a position on. -/
  | scan (x : α) (next : ℕ)

inductive Reply
  | done
  /-- No entry was found. -/
  | missed
  | exhausted
  | cycle
deriving DecidableEq

namespace State

variable {α κ : Type}

/-- The state in which `x` is memoized. -/
def memoize (S : State α) (x : α) : State α := { S with memo := Insert.insert x S.memo }

/-- The state after `x` was computed: paid for, kept if it is known, and memoized. -/
def evaluate (G : Graph α κ) (S : State α) (x : α) : State α where
  memo := Insert.insert x S.memo
  entries := S.entries ++ if G.known x then [x] else []
  evaluated := x :: S.evaluated
  remaining := S.remaining - 1

/-- A new run over the same entries. -/
def restart (S : State α) (n : ℕ) : State α := { S with memo := ∅, remaining := n }

theorem evaluate_memoize (G : Graph α κ) (S : State α) (x : α) :
    (S.evaluate G x).memoize x = S.evaluate G x := by
  simp [evaluate, memoize]

end State

variable {α κ : Type} [DecidableEq κ]

/-- The entries with the hash of `x`. -/
def Graph.bucket (G : Graph α κ) (S : State α) (x : α) : List α :=
  S.entries.filter fun g => G.hash g = G.hash x

theorem Graph.mem_bucket {G : Graph α κ} {S : State α} {x g : α} :
    g ∈ G.bucket S x ↔ g ∈ S.entries ∧ G.hash g = G.hash x := by
  rw [Graph.bucket, List.mem_filter, decide_eq_true_eq]

/-- The machine carries out a task, while the nodes of a set are being computed. -/
inductive Run [DecidableEq α] (G : Graph α κ) : Finset α → State α → Task α → Reply → State α → Prop
  | memo {A : Finset α} {S : State α} {x : α} (h : x ∈ S.memo) : Run G A S (.ask x) .done S
  | cycle {A : Finset α} {S : State α} {x : α} (hx : x ∉ S.memo) (h : x ∈ A) :
    Run G A S (.ask x) .cycle S
  | blocked {A : Finset α} {S S' : State α} {x : α} {r : Reply} (hx : x ∉ S.memo) (hA : x ∉ A)
    (hr : r ≠ .done) (h : Run G (Insert.insert x A) S (.askAll (G.needs x)) r S') :
      Run G A S (.ask x) r S'
  | hit {A : Finset α} {S S₁ S₂ : State α} {x : α} (hx : x ∉ S.memo) (hA : x ∉ A)
    (h : Run G (Insert.insert x A) S (.askAll (G.needs x)) .done S₁)
    (hscan : Run G (Insert.insert x A) S₁ (.scan x 0) .done S₂) :
      Run G A S (.ask x) .done (S₂.memoize x)
  | exhausted {A : Finset α} {S S₁ S₂ : State α} {x : α} (hx : x ∉ S.memo) (hA : x ∉ A)
    (h : Run G (Insert.insert x A) S (.askAll (G.needs x)) .done S₁)
    (hscan : Run G (Insert.insert x A) S₁ (.scan x 0) .missed S₂) (h0 : S₂.remaining = 0) :
    Run G A S (.ask x) .exhausted S₂
  | evaluate {A : Finset α} {S S₁ S₂ : State α} {x : α} (hx : x ∉ S.memo) (hA : x ∉ A)
    (h : Run G (Insert.insert x A) S (.askAll (G.needs x)) .done S₁)
    (hscan : Run G (Insert.insert x A) S₁ (.scan x 0) .missed S₂) (h0 : S₂.remaining ≠ 0) :
    Run G A S (.ask x) .done (S₂.evaluate G x)
  | nil {A : Finset α} {S : State α} : Run G A S (.askAll []) .done S
  | cons {A : Finset α} {S S₁ S₂ : State α} {x : α} {l : List α} {r : Reply}
    (h : Run G A S (.ask x) .done S₁) (h' : Run G A S₁ (.askAll l) r S₂) :
    Run G A S (.askAll (x :: l)) r S₂
  | stop {A : Finset α} {S S' : State α} {x : α} {l : List α} {r : Reply} (hr : r ≠ .done)
    (h : Run G A S (.ask x) r S') : Run G A S (.askAll (x :: l)) r S'
  | last {A : Finset α} {S : State α} {x : α} {n : ℕ} (h : (G.bucket S x)[n]? = none) :
    Run G A S (.scan x n) .missed S
  | own {A : Finset α} {S : State α} {x : α} {n : ℕ} (h : (G.bucket S x)[n]? = some x) :
    Run G A S (.scan x n) .done S
  | unlike {A : Finset α} {S S' : State α} {x g : α} {n : ℕ} {r : Reply}
    (h : (G.bucket S x)[n]? = some g) (hne : g ≠ x) (hc : ¬ G.comparable x g)
    (hrest : Run G A S (.scan x (n + 1)) r S') : Run G A S (.scan x n) r S'
  | skip {A : Finset α} {S S₁ S₂ : State α} {x g : α} {n : ℕ} {r r' : Reply}
    (h : (G.bucket S x)[n]? = some g) (hne : g ≠ x) (hc : G.comparable x g) (hr : r ≠ .done)
    (hask : Run G A S (.askAll (G.needs g)) r S₁) (hrest : Run G A S₁ (.scan x (n + 1)) r' S₂) :
    Run G A S (.scan x n) r' S₂
  | differ {A : Finset α} {S S₁ S₂ : State α} {x g : α} {n : ℕ} {r : Reply}
    (h : (G.bucket S x)[n]? = some g) (hne : g ≠ x) (hc : G.comparable x g)
    (hask : Run G A S (.askAll (G.needs g)) .done S₁) (hd : ¬ G.alike x g)
    (hrest : Run G A S₁ (.scan x (n + 1)) r S₂) : Run G A S (.scan x n) r S₂
  | same {A : Finset α} {S S' : State α} {x g : α} {n : ℕ} (h : (G.bucket S x)[n]? = some g)
    (hne : g ≠ x) (hc : G.comparable x g) (hask : Run G A S (.askAll (G.needs g)) .done S')
    (ha : G.alike x g) : Run G A S (.scan x n) .done S'

/-! ## What a run changes -/

/-- A later state: more is memoized, there are more entries, and what was paid is gone from the
budget. -/
structure Grows (S S' : State α) : Prop where
  memo : S.memo ⊆ S'.memo
  entries : S.entries <+: S'.entries
  evaluated : S.evaluated <:+ S'.evaluated
  paid : S'.remaining + S'.evaluated.length = S.remaining + S.evaluated.length

variable {G : Graph α κ} {A : Finset α} {S S' T : State α} {τ : Task α} {r : Reply} {x : α}

theorem Grows.refl (S : State α) : Grows S S :=
  ⟨subset_rfl, List.prefix_refl _, List.suffix_refl _, rfl⟩

theorem Grows.trans (h : Grows S S') (h' : Grows S' T) : Grows S T where
  memo := h.memo.trans h'.memo
  entries := h.entries.trans h'.entries
  evaluated := h.evaluated.trans h'.evaluated
  paid := h'.paid.trans h.paid

theorem Grows.memoize (S : State α) (x : α) : Grows S (S.memoize x) :=
  ⟨Set.subset_insert x S.memo, List.prefix_refl _, List.suffix_refl _, rfl⟩

omit [DecidableEq κ] in
theorem Grows.evaluate (x : α) (h : S.remaining ≠ 0) : Grows S (S.evaluate G x) where
  memo := Set.subset_insert x S.memo
  entries := List.prefix_append _ _
  evaluated := List.suffix_cons _ _
  paid := by
    simp only [State.evaluate, List.length_cons]
    omega

theorem Grows.remaining_le (h : Grows S S') : S'.remaining ≤ S.remaining := by
  have hpaid := h.paid
  have hlen := h.evaluated.length_le
  omega

/-- With nothing left nothing is paid for. -/
theorem Grows.remaining_eq_zero (h : Grows S S') (h0 : S.remaining = 0) : S'.remaining = 0 :=
  Nat.le_zero.mp (h0 ▸ h.remaining_le)

theorem Grows.bucket (h : Grows S S') (x : α) : G.bucket S x <+: G.bucket S' x :=
  h.entries.filter _

theorem Grows.getElem?_bucket (h : Grows S S') {n : ℕ} {g : α} (hg : (G.bucket S x)[n]? = some g) :
    (G.bucket S' x)[n]? = some g := by
  obtain ⟨l, hl⟩ := h.bucket (G := G) x
  rw [← hl, List.getElem?_append_left (List.getElem?_eq_some_iff.mp hg).1, hg]

variable [DecidableEq α]

theorem Run.grows (h : Run G A S τ r S') : Grows S S' := by
  induction h with
  | memo _ => exact .refl _
  | cycle _ _ => exact .refl _
  | blocked _ _ _ _ ih => exact ih
  | hit _ _ _ _ ih ih' => exact (ih.trans ih').trans (.memoize _ _)
  | exhausted _ _ _ _ _ ih ih' => exact ih.trans ih'
  | evaluate _ _ _ _ h0 ih ih' => exact (ih.trans ih').trans (.evaluate _ h0)
  | nil => exact .refl _
  | cons _ _ ih ih' => exact ih.trans ih'
  | stop _ _ ih => exact ih
  | last _ => exact .refl _
  | own _ => exact .refl _
  | unlike _ _ _ _ ih => exact ih
  | skip _ _ _ _ _ _ ih ih' => exact ih.trans ih'
  | differ _ _ _ _ _ _ ih ih' => exact ih.trans ih'
  | same _ _ _ _ _ ih => exact ih

/-- What can be replied to a task, and what the reply says. -/
def Replies (G : Graph α κ) (S : State α) : Task α → Reply → Prop
  | .ask x, r => r ≠ .missed ∧ (r = .done → x ∈ S.memo)
  | .askAll l, r => r ≠ .missed ∧ (r = .done → ∀ x ∈ l, x ∈ S.memo)
  | .scan x n, r => r = .missed ∨ r = .done ∧ ∃ m, n ≤ m ∧ ∃ g, (G.bucket S x)[m]? = some g ∧
      (g = x ∨ G.comparable x g ∧ G.alike x g ∧ ∀ y ∈ G.needs g, y ∈ S.memo)

theorem Run.replies (h : Run G A S τ r S') : Replies G S' τ r := by
  have next : ∀ {S : State α} {x : α} {n : ℕ} {r : Reply}, Replies G S (.scan x (n + 1)) r →
      Replies G S (.scan x n) r := fun h =>
    h.imp id fun h => ⟨h.1, h.2.imp fun m hm => ⟨Nat.le_of_succ_le hm.1, hm.2⟩⟩
  induction h with
  | memo h => exact ⟨by simp, fun _ => h⟩
  | cycle _ _ => exact ⟨by simp, by simp⟩
  | blocked _ _ hr _ ih => exact ⟨ih.1, fun h => absurd h hr⟩
  | hit _ _ _ _ _ _ => exact ⟨by simp, fun _ => Set.mem_insert _ _⟩
  | exhausted _ _ _ _ _ _ _ => exact ⟨by simp, by simp⟩
  | evaluate _ _ _ _ _ _ _ => exact ⟨by simp, fun _ => Set.mem_insert _ _⟩
  | nil => exact ⟨by simp, by simp⟩
  | cons h h' ih ih' =>
    refine ⟨ih'.1, fun hr y hy => ?_⟩
    rcases List.mem_cons.mp hy with rfl | hy
    · exact h'.grows.memo (ih.2 rfl)
    · exact ih'.2 hr y hy
  | stop hr _ ih => exact ⟨ih.1, fun h => absurd h hr⟩
  | last _ => exact Or.inl rfl
  | own h => exact Or.inr ⟨rfl, _, le_rfl, _, h, Or.inl rfl⟩
  | unlike _ _ _ _ ih => exact next ih
  | skip _ _ _ _ _ _ _ ih => exact next ih
  | differ _ _ _ _ _ _ _ ih => exact next ih
  | same h _ hc hask ha ih =>
    exact Or.inr ⟨rfl, _, le_rfl, _, hask.grows.getElem?_bucket h, Or.inr ⟨hc, ha, ih.2 rfl⟩⟩

/-- A run that is exhausted has nothing left. -/
theorem Run.remaining_eq_zero (h : Run G A S τ r S') (hr : r = .exhausted) : S'.remaining = 0 := by
  induction h with
  | blocked _ _ _ _ ih => exact ih hr
  | exhausted _ _ _ _ h0 _ _ => exact h0
  | cons _ _ _ ih => exact ih hr
  | stop _ _ ih => exact ih hr
  | unlike _ _ _ _ ih => exact ih hr
  | skip _ _ _ _ _ _ _ ih => exact ih hr
  | differ _ _ _ _ _ _ _ ih => exact ih hr
  | _ => cases hr

/-- What is memoized is there for the asking. -/
theorem Run.ask_memo (h : Run G A S (.ask x) r S') (hx : x ∈ S.memo) : r = .done ∧ S' = S := by
  cases h with
  | memo _ => exact ⟨rfl, rfl⟩
  | cycle hx' _ => exact absurd hx hx'
  | blocked hx' _ _ _ => exact absurd hx hx'
  | hit hx' _ _ _ => exact absurd hx hx'
  | exhausted hx' _ _ _ _ => exact absurd hx hx'
  | evaluate hx' _ _ _ _ => exact absurd hx hx'

theorem Run.askAll_memo {l : List α} (h : Run G A S (.askAll l) r S') (hl : ∀ x ∈ l, x ∈ S.memo) :
    r = .done ∧ S' = S := by
  induction l with
  | nil => cases h; exact ⟨rfl, rfl⟩
  | cons x l ih =>
    have hx := hl x List.mem_cons_self
    cases h with
    | cons h h' =>
      obtain ⟨-, rfl⟩ := h.ask_memo hx
      exact ih h' fun y hy => hl y (List.mem_cons_of_mem _ hy)
    | stop hr h => exact absurd (h.ask_memo hx).1 hr

theorem Run.askAll_singleton (h : Run G A S (.ask x) r T) : Run G A S (.askAll [x]) r T := by
  by_cases hr : r = .done
  · subst hr
    exact .cons h .nil
  · exact .stop hr h

theorem Run.of_askAll_singleton (h : Run G A S (.askAll [x]) r T) : Run G A S (.ask x) r T := by
  cases h with
  | cons hx h' => cases h'; exact hx
  | stop _ hx => exact hx

theorem Run.askAll_append {l l' : List α} (h : Run G A S (.askAll l) .done S')
    (h' : Run G A S' (.askAll l') r T) : Run G A S (.askAll (l ++ l')) r T := by
  induction l generalizing S with
  | nil => cases h; exact h'
  | cons x l ih =>
    cases h with
    | cons hx hl => exact .cons hx (ih hl)
    | stop hr _ => exact absurd rfl hr

theorem Run.askAll_stop {l : List α} (hr : r ≠ .done) (h : Run G A S (.askAll l) r S')
    (l' : List α) :
    Run G A S (.askAll (l ++ l')) r S' := by
  induction l generalizing S with
  | nil => cases h; exact absurd rfl hr
  | cons x l ih =>
    cases h with
    | cons hx hl => exact .cons hx (ih hl)
    | stop hr h => exact .stop hr h

/-- The tasks of a list are done if each of them is. -/
theorem Run.askAll_done {l : List α} {M : α → Prop} (h : Run G A S (.askAll l) r T)
    (hask : ∀ y, M y → ∀ S' T r, Grows S S' → Run G A S' (.ask y) r T → r = .done)
    (hl : ∀ y ∈ l, M y) : r = .done := by
  induction l generalizing S with
  | nil => cases h; rfl
  | cons y l ih =>
    cases h with
    | cons h h' =>
      exact ih h' (fun z hz S' T r hS => hask z hz S' T r (h.grows.trans hS))
        fun z hz => hl z (List.mem_cons_of_mem _ hz)
    | stop hr h => exact absurd (hask y (hl y List.mem_cons_self) _ _ _ (.refl S) h) hr

/-! ## The steps of a run -/

/-- How the computation of `x` ends once the scan of its bucket has replied. -/
inductive Settles (G : Graph α κ) (x : α) : Reply → State α → Reply → State α → Prop
  | hit {S : State α} : Settles G x .done S .done (S.memoize x)
  | exhausted {S : State α} (h0 : S.remaining = 0) : Settles G x .missed S .exhausted S
  | evaluate {S : State α} (h0 : S.remaining ≠ 0) : Settles G x .missed S .done (S.evaluate G x)

omit [DecidableEq α] [DecidableEq κ] in
theorem Settles.grows {s : Reply} (h : Settles G x s S r S') : Grows S S' := by
  cases h with
  | hit => exact .memoize _ _
  | exhausted _ => exact .refl _
  | evaluate h0 => exact .evaluate _ h0

/-- A node that is asked for while it is being computed. -/
theorem Run.ask_cycle (h : Run G A S (.ask x) r T) (hx : x ∉ S.memo) (hA : x ∈ A) :
    r = .cycle ∧ T = S := by
  cases h with
  | memo hmem => exact absurd hmem hx
  | cycle _ _ => exact ⟨rfl, rfl⟩
  | blocked _ hA' _ _ => exact absurd hA hA'
  | hit _ hA' _ _ => exact absurd hA hA'
  | exhausted _ hA' _ _ _ => exact absurd hA hA'
  | evaluate _ hA' _ _ _ => exact absurd hA hA'

/-- A node that is not there, and not being computed, is computed: its needs are, then its bucket is
scanned. -/
theorem Run.ask_inv (h : Run G A S (.ask x) r T) (hx : x ∉ S.memo) (hA : x ∉ A) :
    r ≠ .done ∧ Run G (Insert.insert x A) S (.askAll (G.needs x)) r T ∨
      ∃ S₁ s S₂, Run G (Insert.insert x A) S (.askAll (G.needs x)) .done S₁ ∧
        Run G (Insert.insert x A) S₁ (.scan x 0) s S₂ ∧ Settles G x s S₂ r T := by
  cases h with
  | memo hmem => exact absurd hmem hx
  | cycle _ hmem => exact absurd hmem hA
  | blocked _ _ hr h => exact Or.inl ⟨hr, h⟩
  | hit _ _ h hscan => exact Or.inr ⟨_, _, _, h, hscan, .hit⟩
  | exhausted _ _ h hscan h0 => exact Or.inr ⟨_, _, _, h, hscan, .exhausted h0⟩
  | evaluate _ _ h hscan h0 => exact Or.inr ⟨_, _, _, h, hscan, .evaluate h0⟩

/-- At the end of the bucket nothing was found. -/
theorem Run.scan_last {n : ℕ} (h : Run G A S (.scan x n) r T) (hg : (G.bucket S x)[n]? = none) :
    r = .missed ∧ T = S := by
  cases h with
  | last _ => exact ⟨rfl, rfl⟩
  | own hg' => rw [hg] at hg'; cases hg'
  | unlike hg' _ _ _ => rw [hg] at hg'; cases hg'
  | skip hg' _ _ _ _ _ => rw [hg] at hg'; cases hg'
  | differ hg' _ _ _ _ _ => rw [hg] at hg'; cases hg'
  | same hg' _ _ _ _ => rw [hg] at hg'; cases hg'

/-- The node's own entry is found. -/
theorem Run.scan_own {n : ℕ} (h : Run G A S (.scan x n) r T)
    (hg : (G.bucket S x)[n]? = some x) : r = .done ∧ T = S := by
  have here : ∀ {g : α}, (G.bucket S x)[n]? = some g → g = x := fun h' =>
    Option.some.inj (h'.symm.trans hg)
  cases h with
  | last hg' => rw [hg'] at hg; cases hg
  | own _ => exact ⟨rfl, rfl⟩
  | unlike hg' hne _ _ => exact absurd (here hg') hne
  | skip hg' hne _ _ _ _ => exact absurd (here hg') hne
  | differ hg' hne _ _ _ _ => exact absurd (here hg') hne
  | same hg' hne _ _ _ => exact absurd (here hg') hne

/-- A candidate that differs without a look at its key is passed over. -/
theorem Run.scan_unlike {n : ℕ} {g : α} (h : Run G A S (.scan x n) r T)
    (hg : (G.bucket S x)[n]? = some g) (hne : g ≠ x) (hc : ¬ G.comparable x g) :
    Run G A S (.scan x (n + 1)) r T := by
  have here : ∀ {g' : α}, (G.bucket S x)[n]? = some g' → g = g' := fun h' =>
    Option.some.inj (hg.symm.trans h')
  cases h with
  | last hg' => rw [hg'] at hg; cases hg
  | own hg' => exact absurd (here hg') hne
  | unlike _ _ _ hrest => exact hrest
  | skip hg' _ hc' _ _ _ => exact absurd (here hg' ▸ hc') hc
  | differ hg' _ hc' _ _ _ => exact absurd (here hg' ▸ hc') hc
  | same hg' _ hc' _ _ => exact absurd (here hg' ▸ hc') hc

/-- The needs of a candidate whose key has to be looked at are computed.  It is the entry, or the
scan goes on. -/
theorem Run.scan_compared {n : ℕ} {g : α} (h : Run G A S (.scan x n) r T)
    (hg : (G.bucket S x)[n]? = some g) (hne : g ≠ x) (hc : G.comparable x g) :
    ∃ s S₁, Run G A S (.askAll (G.needs g)) s S₁ ∧
      (s = .done ∧ G.alike x g ∧ r = .done ∧ T = S₁ ∨
        ¬ (s = .done ∧ G.alike x g) ∧ Run G A S₁ (.scan x (n + 1)) r T) := by
  have here : ∀ {g' : α}, (G.bucket S x)[n]? = some g' → g' = g := fun h' =>
    Option.some.inj (h'.symm.trans hg)
  cases h with
  | last hg' => rw [hg'] at hg; cases hg
  | own hg' => exact absurd (here hg').symm hne
  | unlike hg' _ hc' _ => exact absurd hc (here hg' ▸ hc')
  | skip hg' _ _ hr hask hrest =>
    obtain rfl := here hg'
    exact ⟨_, _, hask, Or.inr ⟨fun h => hr h.1, hrest⟩⟩
  | differ hg' _ _ hask hd hrest =>
    obtain rfl := here hg'
    exact ⟨_, _, hask, Or.inr ⟨fun h => hd h.2, hrest⟩⟩
  | same hg' _ _ hask ha =>
    obtain rfl := here hg'
    exact ⟨_, _, hask, Or.inl ⟨rfl, ha, rfl, rfl⟩⟩

theorem notMem_memo_insert (hx : x ∉ S.memo) (hA : ∀ y ∈ A, y ∉ S.memo) :
    ∀ y ∈ Insert.insert x A, y ∉ S.memo := by
  intro y hy
  rcases Finset.mem_insert.mp hy with rfl | hy
  · exact hx
  · exact hA y hy

/-- What is being computed is not memoized. -/
theorem Run.disjoint (h : Run G A S τ r S') (hA : ∀ y ∈ A, y ∉ S.memo) : ∀ y ∈ A, y ∉ S'.memo := by
  -- The node that was computed is none of those that still are.
  have left : ∀ {A : Finset α} {M : Set α} {x : α}, x ∉ A → (∀ y ∈ Insert.insert x A, y ∉ M) →
      ∀ y ∈ A, y ∉ Insert.insert x M := by
    intro A M x hx hM y hy hmem
    rcases Set.mem_insert_iff.mp hmem with rfl | hmem
    · exact hx hy
    · exact hM y (Finset.mem_insert_of_mem hy) hmem
  induction h with
  | memo _ => exact hA
  | cycle _ _ => exact hA
  | blocked hx _ _ _ ih =>
    exact fun y hy => ih (notMem_memo_insert hx hA) y (Finset.mem_insert_of_mem hy)
  | hit hx hxA _ _ ih ih' => exact left hxA (ih' (ih (notMem_memo_insert hx hA)))
  | exhausted hx _ _ _ _ ih ih' =>
    exact fun y hy => ih' (ih (notMem_memo_insert hx hA)) y (Finset.mem_insert_of_mem hy)
  | evaluate hx hxA _ _ _ ih ih' => exact left hxA (ih' (ih (notMem_memo_insert hx hA)))
  | nil => exact hA
  | cons _ _ ih ih' => exact ih' (ih hA)
  | stop _ _ ih => exact ih hA
  | last _ => exact hA
  | own _ => exact hA
  | unlike _ _ _ _ ih => exact ih hA
  | skip _ _ _ _ _ _ ih ih' => exact ih' (ih hA)
  | differ _ _ _ _ _ _ ih ih' => exact ih' (ih hA)
  | same _ _ _ _ _ ih => exact ih hA

end MlirInterpreter.Sharing
