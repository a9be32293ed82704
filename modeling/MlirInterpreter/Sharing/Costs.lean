import MlirInterpreter.Sharing.SourceOrder
import MlirInterpreter.Sharing.Unique
import Mathlib.Data.Finset.Card
import Mathlib.Tactic.Tauto

/-!
# What runs cost

Nodes of a set that is closed under needs, and holds the nodes of all entries, are computed from
each other alone (`Inside`).  A run of such nodes only memoizes and evaluates nodes of the set that
were not memoized, and evaluates none that has an entry: `Run.induction_inside` is the induction
over its two kinds of writes.  With it:

* a step for every node of the set is enough (`Run.ask_ne_exhausted`);
* if all nodes of the set are known, entries are made for exactly the nodes that are paid for, and
  each has one entry at most (`Run.paidOnce`).

Where hashes do not collide, a node that was completed once is completed for nothing ever after
(`Ranked.free`).
-/

set_option autoImplicit false

namespace MlirInterpreter.Sharing

variable {α κ : Type} {G : Graph α κ} {A : Finset α}
  {S T : State α} {τ : Task α} {r : Reply} {x : α} {o : List α}

/-! ## Runs inside a set of nodes -/

/-- The nodes of `N` need each other only. -/
def Graph.Closed (G : Graph α κ) (N : Set α) : Prop := ∀ x ∈ N, ∀ y ∈ G.needs x, y ∈ N

/-- The entries are for nodes of `N`. -/
def Inside (N : Set α) (S : State α) : Prop := ∀ g ∈ S.entries, g ∈ N

/-- The task is about nodes of `N`. -/
def TaskInside (N : Set α) : Task α → Prop
  | .ask x => x ∈ N
  | .askAll l => ∀ x ∈ l, x ∈ N
  | .scan x _ => x ∈ N

theorem Inside.evaluate {N : Set α} (h : Inside N S) (hx : x ∈ N) : Inside N (S.evaluate G x) := by
  intro g hg
  rcases List.mem_append.mp hg with hg | hg
  · exact h g hg
  · split at hg
    · exact List.mem_singleton.mp hg ▸ hx
    · cases hg

variable [DecidableEq α] [DecidableEq κ]

/-- A scan that found nothing has not seen the node's own entry. -/
theorem Run.scan_missed {n : ℕ} (h : Run G A S (.scan x n) .missed T) :
    ∀ m, n ≤ m → (G.bucket T x)[m]? ≠ some x := by
  generalize hτ : Task.scan x n = τ at h
  generalize hr : Reply.missed = r at h
  induction h generalizing n with
  | last hg =>
    obtain ⟨rfl, rfl⟩ := Task.scan.inj hτ
    intro m hm heq
    have hlen := List.getElem?_eq_none_iff.mp hg
    have hlt := (List.getElem?_eq_some_iff.mp heq).1
    omega
  | unlike hg hne _ hrest ih =>
    obtain ⟨rfl, rfl⟩ := Task.scan.inj hτ
    intro m hm heq
    rcases Nat.eq_or_lt_of_le hm with rfl | hlt
    · exact hne (Option.some.inj ((hrest.grows.getElem?_bucket hg).symm.trans heq))
    · exact ih rfl hr m hlt heq
  | skip hg hne _ _ hask hrest _ ih =>
    obtain ⟨rfl, rfl⟩ := Task.scan.inj hτ
    have hgrows := hask.grows.trans hrest.grows
    intro m hm heq
    rcases Nat.eq_or_lt_of_le hm with rfl | hlt
    · exact hne (Option.some.inj ((hgrows.getElem?_bucket hg).symm.trans heq))
    · exact ih rfl hr m hlt heq
  | differ hg hne _ hask _ hrest _ ih =>
    obtain ⟨rfl, rfl⟩ := Task.scan.inj hτ
    have hgrows := hask.grows.trans hrest.grows
    intro m hm heq
    rcases Nat.eq_or_lt_of_le hm with rfl | hlt
    · exact hne (Option.some.inj ((hgrows.getElem?_bucket hg).symm.trans heq))
    · exact ih rfl hr m hlt heq
  | own _ => cases hr
  | same _ _ _ _ _ _ => cases hr
  | _ => cases hτ

/-- What is evaluated has no entry. -/
theorem Run.notMem_entries (h : Run G A S (.scan x 0) .missed T) : x ∉ T.entries := by
  intro hx
  have hmem : x ∈ G.bucket T x := Graph.mem_bucket.mpr ⟨hx, rfl⟩
  obtain ⟨m, hm⟩ := List.getElem?_of_mem hmem
  exact h.scan_missed m (Nat.zero_le m) hm

/-- **The induction over the writes of a run inside a set of nodes.** -/
theorem Run.induction_inside {N : Set α} {I : State α → Prop} (hN : G.Closed N)
    (memoize : ∀ (S : State α) x, x ∈ N → I S → I (S.memoize x))
    (evaluate : ∀ (S : State α) x, x ∈ N → x ∉ S.memo → x ∉ S.entries → S.remaining ≠ 0 → I S →
      I (S.evaluate G x))
    (h : Run G A S τ r T) (hA : ∀ y ∈ A, y ∉ S.memo) (hτ : TaskInside N τ) (hin : Inside N S)
    (hS : I S) : Inside N T ∧ I T := by
  induction h with
  | memo _ => exact ⟨hin, hS⟩
  | cycle _ _ => exact ⟨hin, hS⟩
  | blocked hx _ _ _ ih => exact ih (notMem_memo_insert hx hA) (hN _ hτ) hin hS
  | hit hx _ h hscan ih ih' =>
    have hA₁ := notMem_memo_insert hx hA
    obtain ⟨hin₁, hS₁⟩ := ih hA₁ (hN _ hτ) hin hS
    obtain ⟨hin₂, hS₂⟩ := ih' (h.disjoint hA₁) hτ hin₁ hS₁
    exact ⟨hin₂, memoize _ _ hτ hS₂⟩
  | exhausted hx _ h _ _ ih ih' =>
    have hA₁ := notMem_memo_insert hx hA
    obtain ⟨hin₁, hS₁⟩ := ih hA₁ (hN _ hτ) hin hS
    exact ih' (h.disjoint hA₁) hτ hin₁ hS₁
  | evaluate hx _ h hscan h0 ih ih' =>
    have hA₁ := notMem_memo_insert hx hA
    obtain ⟨hin₁, hS₁⟩ := ih hA₁ (hN _ hτ) hin hS
    obtain ⟨hin₂, hS₂⟩ := ih' (h.disjoint hA₁) hτ hin₁ hS₁
    have hnew := hscan.disjoint (h.disjoint hA₁) _ (Finset.mem_insert_self _ _)
    exact ⟨hin₂.evaluate hτ, evaluate _ _ hτ hnew hscan.notMem_entries h0 hS₂⟩
  | nil => exact ⟨hin, hS⟩
  | cons h _ ih ih' =>
    obtain ⟨hin₁, hS₁⟩ := ih hA (hτ _ List.mem_cons_self) hin hS
    exact ih' (h.disjoint hA) (fun y hy => hτ y (List.mem_cons_of_mem _ hy)) hin₁ hS₁
  | stop _ _ ih => exact ih hA (hτ _ List.mem_cons_self) hin hS
  | last _ => exact ⟨hin, hS⟩
  | own _ => exact ⟨hin, hS⟩
  | unlike _ _ _ _ ih => exact ih hA hτ hin hS
  | skip hg _ _ _ hask _ ih ih' =>
    have hmem := hin _ (Graph.mem_bucket.mp (List.mem_of_getElem? hg)).1
    obtain ⟨hin₁, hS₁⟩ := ih hA (hN _ hmem) hin hS
    exact ih' (hask.disjoint hA) hτ hin₁ hS₁
  | differ hg _ _ hask _ _ ih ih' =>
    have hmem := hin _ (Graph.mem_bucket.mp (List.mem_of_getElem? hg)).1
    obtain ⟨hin₁, hS₁⟩ := ih hA (hN _ hmem) hin hS
    exact ih' (hask.disjoint hA) hτ hin₁ hS₁
  | same hg _ _ _ _ ih =>
    have hmem := hin _ (Graph.mem_bucket.mp (List.mem_of_getElem? hg)).1
    exact ih hA (hN _ hmem) hin hS

/-! ## Enough -/

open Classical in
/-- The nodes of `N` that are not memoized. -/
noncomputable def missing (N : Finset α) (S : State α) : Finset α := N.filter fun x => x ∉ S.memo

omit [DecidableEq α] in
theorem mem_missing {N : Finset α} : x ∈ missing N S ↔ x ∈ N ∧ x ∉ S.memo := by
  simp [missing]

theorem missing_memoize (N : Finset α) (S : State α) (x : α) :
    missing N (S.memoize x) = (missing N S).erase x := by
  ext y
  rw [Finset.mem_erase, mem_missing, mem_missing]
  show y ∈ N ∧ y ∉ Insert.insert x S.memo ↔ _
  rw [Set.mem_insert_iff]
  tauto

/-- There is a step left for every node of `N` that is not memoized. -/
def Funded (N : Finset α) (S : State α) : Prop := (missing N S).card ≤ S.remaining

omit [DecidableEq α] in
theorem Funded.of_card_le {N : Finset α} (h : N.card ≤ S.remaining) : Funded N S :=
  (Finset.card_le_card fun _ hy => (mem_missing.mp hy).1).trans h

theorem Funded.memoize {N : Finset α} (h : Funded N S) (x : α) : Funded N (S.memoize x) := by
  rw [Funded, missing_memoize]
  exact (Finset.card_erase_le).trans h

omit [DecidableEq κ] in
theorem Funded.evaluate {N : Finset α} (h : Funded N S) (hx : x ∈ N) (hmemo : x ∉ S.memo) :
    Funded N (S.evaluate G x) := by
  have hmissing : missing N (S.evaluate G x) = (missing N S).erase x := missing_memoize N S x
  show (missing N (S.evaluate G x)).card ≤ S.remaining - 1
  rw [hmissing, Finset.card_erase_of_mem (mem_missing.mpr ⟨hx, hmemo⟩)]
  exact Nat.sub_le_sub_right h 1

/-- A node that was asked for in vain is not memoized. -/
theorem Run.notMem_of_ne_done (h : Run G A S (.ask x) r T) (hA : ∀ y ∈ A, y ∉ S.memo)
    (hr : r ≠ .done) : x ∉ T.memo := by
  cases h with
  | memo _ => exact absurd rfl hr
  | cycle hx _ => exact hx
  | blocked hx _ _ h => exact h.disjoint (notMem_memo_insert hx hA) _ (Finset.mem_insert_self _ _)
  | hit _ _ _ _ => exact absurd rfl hr
  | exhausted hx _ h hscan _ =>
    exact hscan.disjoint (h.disjoint (notMem_memo_insert hx hA)) _ (Finset.mem_insert_self _ _)
  | evaluate _ _ _ _ _ => exact absurd rfl hr

/-- **A step for every node is enough.** -/
theorem Run.ask_ne_exhausted {N : Finset α} (hN : G.Closed N) (h : Run G A S (.ask x) r T)
    (hA : ∀ y ∈ A, y ∉ S.memo) (hx : x ∈ N) (hin : Inside N S) (hS : Funded N S) :
    r ≠ .exhausted := by
  rintro rfl
  have hT : Funded N T := (h.induction_inside (I := Funded N) hN (fun _ x _ h => h.memoize x)
    (fun _ _ hx hmemo _ _ h => h.evaluate hx hmemo) hA hx hin hS).2
  have hpos : 0 < (missing N T).card :=
    Finset.card_pos.mpr ⟨x, mem_missing.mpr ⟨hx, h.notMem_of_ne_done hA (by simp)⟩⟩
  have hzero := h.remaining_eq_zero rfl
  have hle : (missing N T).card ≤ T.remaining := hT
  omega

/-! ## Paid once -/

/-- The nodes that were paid for since `S` are those that entries were made for, and none has two
entries. -/
structure PaidOnce (S T : State α) : Prop where
  made : T.evaluated.length + S.entries.length = S.evaluated.length + T.entries.length
  nodup : T.entries.Nodup

omit [DecidableEq α] in
theorem PaidOnce.refl (h : S.entries.Nodup) : PaidOnce S S := ⟨rfl, h⟩

/-- **If all nodes are known, entries are made for exactly what is paid for.** -/
theorem Run.paidOnce {N : Set α} (hN : G.Closed N) (hknown : ∀ x ∈ N, G.known x = true)
    (h : Run G A S τ r T) (hA : ∀ y ∈ A, y ∉ S.memo) (hτ : TaskInside N τ) (hin : Inside N S)
    (hS : S.entries.Nodup) : Inside N T ∧ PaidOnce S T := by
  refine h.induction_inside (I := PaidOnce S) hN (fun _ _ _ h => ⟨h.made, h.nodup⟩)
    (fun U x hx _ hnew _ h => ?_) hA hτ hin (.refl hS)
  have hentries : (U.evaluate G x).entries = U.entries ++ [x] := by
    rw [State.evaluate, if_pos (hknown x hx)]
  have hmade := h.made
  refine ⟨?_, ?_⟩
  · rw [hentries, List.length_append, List.length_singleton]
    show U.evaluated.length + 1 + _ = _
    omega
  · rw [hentries, List.nodup_append]
    exact ⟨h.nodup, List.nodup_singleton x, fun g hg y hy => by
      rw [List.mem_singleton.mp hy]
      rintro rfl
      exact hnew hg⟩

/-! ## Free ever after -/

/-- A node is computed for nothing, if its needs are, and those of the candidates up to the one that
matches. -/
theorem ForFree.of_bucket {m : ℕ} {e : α} (hA : x ∉ A)
    (hneeds : ∀ y ∈ G.needs x, ForFree G (Insert.insert x A) S y)
    (he : (G.bucket S x)[m]? = some e) (hmatch : e = x ∨ G.comparable x e ∧ G.alike x e)
    (hfree : ∀ i g, i ≤ m → (G.bucket S x)[i]? = some g → ∀ y ∈ G.needs g,
      ForFree G (Insert.insert x A) S y) : ForFree G A S x := by
  intro S' T r hS' h
  have needs : ∀ {r : Reply} {U : State α},
      Run G (Insert.insert x A) S' (.askAll (G.needs x)) r U → r = .done ∧ Costless S' U := fun h =>
    h.askAll_costless fun y hy => (hneeds y hy).mono hS'
  have scan : ∀ {r : Reply} {U V : State α}, Costless S' U →
      Run G (Insert.insert x A) U (.scan x 0) r V → r = .done ∧ Costless U V := by
    intro r U V hU h
    have hUS : Costless S U := hS'.trans hU
    have hbucket : G.bucket U x = G.bucket S x := hUS.bucket x
    obtain ⟨hV, hr⟩ := h.scan_costless (Nat.zero_le m)
      (fun i g hi hg y hy => (hfree i g hi (hbucket ▸ hg) y hy).mono hUS)
      (fun g hg => Option.some.inj ((hbucket ▸ hg).symm.trans he) ▸ hmatch)
    refine ⟨hr ?_, hV⟩
    rw [hbucket, he]
    simp
  cases h with
  | memo _ => exact ⟨rfl, .refl S'⟩
  | cycle _ hmem => exact absurd hmem hA
  | blocked _ _ hr h => exact absurd (needs h).1 hr
  | hit _ _ h hscan =>
    have hU := (needs h).2
    exact ⟨rfl, (hU.trans (scan hU hscan).2).memoize x⟩
  | exhausted _ _ h hscan _ => cases (scan (needs h).2 hscan).1
  | evaluate _ _ h hscan _ => cases (scan (needs h).2 hscan).1

/-- **What was completed once is free ever after**, if hashes do not collide and everything is
known, while only nodes that were completed later are being computed. -/
theorem Ranked.free {N : Set α} (hG : G.Lawful) (hhash : G.NoCollision) (hN : G.Closed N)
    (hknown : ∀ x ∈ N, G.known x = true) (hin : Inside N S) (hS : Ranked G o S) (hxN : x ∈ N)
    (hx : x ∈ o) (hA : ∀ y ∈ A, Before o x y) : ForFree G A S x := by
  induction hi : o.idxOf x using Nat.strong_induction_on generalizing x A with
  | _ i ih =>
    subst hi
    have before : ∀ y ∈ N, Before o y x → ForFree G (Insert.insert x A) S y := by
      intro y hyN hy
      refine ih _ hy hyN hy.mem (fun z hz => ?_) rfl
      rcases Finset.mem_insert.mp hz with rfl | hz
      · exact hy
      · exact hy.trans (hA z hz)
    obtain ⟨e, he, halike, hneeds⟩ := hS.kept x hx (hknown x hxN)
    obtain ⟨m, hm⟩ := List.getElem?_of_mem (Graph.mem_bucket.mpr ⟨he, hG.hash x e halike⟩)
    refine .of_bucket (fun hmem => lt_irrefl _ (hA x hmem))
      (fun y hy => before y (hN x hxN y hy) (hS.needs x hx y hy)) hm
      (Or.inr ⟨hG.comparable x e halike, halike⟩) fun i g _ hg y hy => ?_
    -- All candidates are alike, so there is one.
    obtain ⟨hgmem, hkey⟩ := Graph.mem_bucket.mp (List.mem_of_getElem? hg)
    have hge : G.alike g e := hG.trans g x e (hhash g x hkey) halike
    obtain rfl := hS.eq_of_alike hG hgmem he hge
    exact before y (hN g (hin g he) y hy) (hneeds y hy)

end MlirInterpreter.Sharing
