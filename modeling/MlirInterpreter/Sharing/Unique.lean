import MlirInterpreter.Sharing.Machine
import Mathlib.Data.List.Pairwise

/-!
# Nodes with equal keys share an entry

If keys that differ have different hashes, no two entries have equal keys, whatever was exhausted on
the way.

A second entry could only come from a comparison that was skipped.  One that is exhausted leaves
nothing to pay for an entry with.  What has to be excluded is a comparison that asks for a node that
is just being computed.  The argument is about the order of first completions, over the whole
history since the entries were cleared (`Ranked`): a node, and the node of the entry it is kept in,
need only nodes that were completed before it.  So what is asked for was completed before everything
that is being computed, unless that was never completed, and then it cannot be asked for either
(`Clear`).
-/

set_option autoImplicit false

namespace MlirInterpreter.Sharing

variable {α κ : Type} [DecidableEq α] {G : Graph α κ} {A : Finset α}
  {S T : State α} {τ : Task α} {r : Reply} {x y g : α} {o o' : List α}

/-- `x` comes before `y` in `o`. -/
def Before (o : List α) (x y : α) : Prop := o.idxOf x < o.idxOf y

theorem Before.mem (h : Before o x y) : x ∈ o :=
  List.idxOf_lt_length_iff.mp (h.trans_le List.idxOf_le_length)

theorem Before.trans {z : α} (h : Before o x y) (h' : Before o y z) : Before o x z :=
  Nat.lt_trans h h'

/-- What was completed later comes after. -/
theorem Before.mono (h : Before o x y) (ho : o <+: o') : Before o' x y := by
  obtain ⟨l, rfl⟩ := ho
  have hx := h.mem
  rw [Before, List.idxOf_append_of_mem hx]
  by_cases hy : y ∈ o
  · rw [List.idxOf_append_of_mem hy]
    exact h
  · rw [List.idxOf_append_of_notMem hy]
    exact (List.idxOf_lt_length_iff.mpr hx).trans_le (Nat.le_add_right _ _)

/-- The node that is completed now comes after the others. -/
theorem before_append (hx : x ∈ o) (hy : y ∉ o) : Before (o ++ [y]) x y := by
  rw [Before, List.idxOf_append_of_mem hx, List.idxOf_append_of_notMem hy]
  exact (List.idxOf_lt_length_iff.mpr hx).trans_le (Nat.le_add_right _ _)

/-- The nodes of `o` were completed, for the first time in this order. -/
structure Ranked (G : Graph α κ) (o : List α) (S : State α) : Prop where
  memo : ∀ x ∈ S.memo, x ∈ o
  needs : ∀ x ∈ o, ∀ y ∈ G.needs x, Before o y x
  /-- What a node was first found to be like needs nodes from before it. -/
  kept : ∀ x ∈ o, G.known x = true → ∃ g ∈ S.entries, G.alike x g ∧ ∀ y ∈ G.needs g, Before o y x
  entries : ∀ g ∈ S.entries, G.known g = true ∧ ∀ y ∈ G.needs g, y ∈ o
  unique : S.entries.Pairwise fun g h => ¬ G.alike g h

/-- The node can be computed without the nodes of `A`. -/
def Clear (G : Graph α κ) (A : Finset α) (o : List α) (x : α) : Prop :=
  ∀ m ∈ A, if m ∈ o then Before o x m else x ∈ o ∨ Relation.TransGen (fun a b => b ∈ G.needs a) m x

/-- The nodes of `A` that were completed were completed after `x`, or are `x`. -/
def ScanClear (A : Finset α) (o : List α) (x : α) : Prop := ∀ m ∈ A, m ∈ o → m = x ∨ Before o x m

def TaskClear (G : Graph α κ) (A : Finset α) (o : List α) : Task α → Prop
  | .ask x => Clear G A o x
  | .askAll l => ∀ x ∈ l, Clear G A o x
  | .scan x _ => ScanClear A o x

/-- Later, more was completed, but none of the nodes of `A`. -/
structure Later (A : Finset α) (o o' : List α) : Prop where
  order : o <+: o'
  fresh : ∀ y ∈ A, y ∈ o' → y ∈ o

omit [DecidableEq α] in
theorem Later.refl (A : Finset α) (o : List α) : Later A o o := ⟨List.prefix_refl o, fun _ _ h => h⟩

omit [DecidableEq α] in
theorem Later.trans {o'' : List α} (h : Later A o o') (h' : Later A o' o'') : Later A o o'' :=
  ⟨h.order.trans h'.order, fun y hy hmem => h.fresh y hy (h'.fresh y hy hmem)⟩

theorem Later.of_insert (h : Later (Insert.insert x A) o o') : Later A o o' :=
  ⟨h.order, fun y hy => h.fresh y (Finset.mem_insert_of_mem hy)⟩

theorem Clear.later (h : Clear G A o x) (ho : Later A o o') : Clear G A o' x := by
  intro m hm
  have h := h m hm
  split at h
  · next hmem => rw [if_pos (ho.order.subset hmem)]; exact h.mono ho.order
  · next hmem =>
    rw [if_neg fun h' => hmem (ho.fresh m hm h')]
    exact h.imp_left fun h => ho.order.subset h

theorem ScanClear.later (h : ScanClear A o x) (ho : Later A o o') :
    ScanClear A o' x := fun m hm hmem =>
  (h m hm (ho.fresh m hm hmem)).imp_right fun h => h.mono ho.order

/-- Hashes of different keys differ. -/
def Graph.NoCollision (G : Graph α κ) : Prop := ∀ x y, G.hash x = G.hash y → G.alike x y

/-- No node needs itself. -/
def Graph.Acyclic (G : Graph α κ) : Prop := ∀ x, ¬ Relation.TransGen (fun a b => b ∈ G.needs a) x x

/-- A node that is clear is not being computed. -/
theorem Clear.notMem (hG : G.Acyclic) (h : Clear G A o x) : x ∉ A := by
  intro hx
  have h := h x hx
  split at h
  · exact lt_irrefl _ h
  · next hmem => exact h.elim hmem (hG x)

/-- What a node needs is clear of it, too. -/
theorem Clear.needs (hS : Ranked G o S) (h : Clear G A o x) (hy : y ∈ G.needs x) :
    Clear G (Insert.insert x A) o y := by
  intro m hm
  by_cases hx : x ∈ o
  · have hyx : Before o y x := hS.needs x hx y hy
    split
    · next hmem =>
      rcases Finset.mem_insert.mp hm with rfl | hm
      · exact hyx
      · have h := h m hm
        rw [if_pos hmem] at h
        exact hyx.trans h
    · exact Or.inl hyx.mem
  · rcases Finset.mem_insert.mp hm with rfl | hm
    · rw [if_neg hx]
      exact Or.inr (.single hy)
    · have h := h m hm
      split at h
      · next hmem => exact absurd h.mem hx
      · next hmem =>
        rw [if_neg hmem]
        exact Or.inr ((h.resolve_left hx).tail hy)

theorem Clear.scan (h : Clear G A o x) : ScanClear (Insert.insert x A) o x := by
  intro m hm hmem
  rcases Finset.mem_insert.mp hm with rfl | hm
  · exact Or.inl rfl
  · have h := h m hm
    rw [if_pos hmem] at h
    exact Or.inr h

/-- There is one entry for each key. -/
theorem Ranked.eq_of_alike (hG : G.Lawful) (hS : Ranked G o S) {h : α} (hg : g ∈ S.entries)
    (hh : h ∈ S.entries) (ha : G.alike g h) : g = h := by
  have : Std.Symm fun a b => ¬ G.alike a b := ⟨fun a b hab hba => hab (hG.symm b a hba)⟩
  by_contra hne
  exact hS.unique.forall hg hh hne ha

/-- What a candidate needs is clear. -/
theorem ScanClear.needs (hG : G.Lawful) (hS : Ranked G o S) (h : ScanClear A o x)
    (hg : g ∈ S.entries)
    (ha : G.alike x g) (hy : y ∈ G.needs g) : Clear G A o y := by
  intro m hm
  have hmem := (hS.entries g hg).2 y hy
  split
  · next hmo =>
    -- The candidate is the entry that `x` was first found to be like.
    have before : x ∈ o → Before o y x := by
      intro hx
      obtain ⟨g', hg', ha', hneeds⟩ := hS.kept x hx ((hG.known x g ha).trans (hS.entries g hg).1)
      obtain rfl := hS.eq_of_alike hG hg hg' (hG.trans g x g' (hG.symm x g ha) ha')
      exact hneeds y hy
    rcases h m hm hmo with rfl | hxm
    · exact before hmo
    · exact (before hxm.mem).trans hxm
  · exact Or.inl hmem

/-- Before the first run nothing was completed. -/
theorem Ranked.start (hm : S.memo = ∅) (he : S.entries = []) : Ranked G [] S :=
  ⟨by simp [hm], by simp, by simp, by simp [he], by simp [he]⟩

/-- The next run starts without a memo. -/
theorem Ranked.restart (h : Ranked G o S) (n : ℕ) : Ranked G o (S.restart n) :=
  ⟨by simp [State.restart], h.needs, h.kept, h.entries, h.unique⟩

/-- A node is completed for the first time, or again. -/
def completed (o : List α) (x : α) : List α := if x ∈ o then o else o ++ [x]

theorem mem_completed : y ∈ completed o x ↔ y ∈ o ∨ y = x := by
  rw [completed]
  split
  · next hx => exact ⟨Or.inl, fun h => h.elim id fun h => h ▸ hx⟩
  · rw [List.mem_append, List.mem_singleton]

theorem later_completed (hx : x ∉ A) : Later A o (completed o x) where
  order := by
    rw [completed]
    split
    · exact List.prefix_refl o
    · exact List.prefix_append _ _
  fresh y hy hmem := (mem_completed.mp hmem).resolve_right fun h => hx (h ▸ hy)

/-- What was completed comes before a node that is completed for the first time. -/
theorem before_completed (hy : y ∈ o) (hx : x ∉ o) : Before (completed o x) y x := by
  rw [completed, if_neg hx]
  exact before_append hy hx

/-- A node is completed that is kept in an entry. -/
theorem Ranked.complete (hS : Ranked G o S) (hA : x ∉ A) (hneeds : ∀ y ∈ G.needs x, y ∈ o)
    {E : List α} (hE : ∀ g ∈ E, G.known g = true ∧ ∀ y ∈ G.needs g, y ∈ o)
    (hpre : S.entries <+: E) (hu : E.Pairwise fun g h => ¬ G.alike g h)
    (hkept : G.known x = true → ∃ g ∈ E, G.alike x g) (hT : T.entries = E)
    (hm : T.memo = Insert.insert x S.memo) : Ranked G (completed o x) T := by
  have hlater := later_completed (o := o) (A := ∅) (x := x) (by simp)
  -- A node of `o`, or `x` for the first time.
  have cases_on : ∀ z ∈ completed o x, z ∈ o ∨ z = x ∧ x ∉ o := by
    intro z hz
    by_cases hzo : z ∈ o
    · exact Or.inl hzo
    · obtain rfl := (mem_completed.mp hz).resolve_left hzo
      exact Or.inr ⟨rfl, hzo⟩
  refine ⟨fun z hz => ?_, fun z hz y hy => ?_, fun z hz hknown => ?_, fun g hg => ?_, hT ▸ hu⟩
  · rw [hm] at hz
    exact mem_completed.mpr ((Set.mem_insert_iff.mp hz).symm.imp (hS.memo z) id)
  · rcases cases_on z hz with hz | ⟨rfl, hx⟩
    · exact (hS.needs z hz y hy).mono hlater.order
    · exact before_completed (hneeds y hy) hx
  · rw [hT]
    rcases cases_on z hz with hz | ⟨rfl, hx⟩
    · obtain ⟨g, hg, ha, hy⟩ := hS.kept z hz hknown
      exact ⟨g, hpre.subset hg, ha, fun y hmem => (hy y hmem).mono hlater.order⟩
    · obtain ⟨g, hg, ha⟩ := hkept hknown
      exact ⟨g, hg, ha, fun y hy => before_completed ((hE g hg).2 y hy) hx⟩
  · rw [hT] at hg
    exact ⟨(hE g hg).1, fun y hy => hlater.order.subset ((hE g hg).2 y hy)⟩

variable [DecidableEq κ]

/-- Where a scan found nothing there was nothing, unless a comparison was exhausted. -/
def Missed (G : Graph α κ) (T : State α) : Task α → Reply → Prop
  | .scan x n, .missed =>
    T.remaining ≠ 0 → ∀ m g, n ≤ m → (G.bucket T x)[m]? = some g → ¬ G.alike x g
  | _, _ => True

omit [DecidableEq α] in
theorem Missed.next {n : ℕ} (h : Missed G T (.scan x (n + 1)) r)
    (hn : r = .missed → T.remaining ≠ 0 → ∀ g, (G.bucket T x)[n]? = some g → ¬ G.alike x g) :
    Missed G T (.scan x n) r := by
  cases r with
  | missed =>
    intro hrem m g hm hg
    rcases Nat.eq_or_lt_of_le hm with rfl | hlt
    · exact hn rfl hrem g hg
    · exact h hrem m g hlt hg
  | done => trivial
  | exhausted => trivial
  | cycle => trivial

/-- **Nothing that is being computed is asked for, and what is evaluated has no entry.** -/
theorem Run.ranked (hG : G.Lawful) (hacyclic : G.Acyclic) (hhash : G.NoCollision)
    (h : Run G A S τ r T) (hS : Ranked G o S) (hτ : TaskClear G A o τ) :
    ∃ o', Later A o o' ∧ Ranked G o' T ∧ r ≠ .cycle ∧ Missed G T τ r := by
  induction h generalizing o with
  | memo _ => exact ⟨o, .refl _ o, hS, by simp, trivial⟩
  | cycle _ hmem => exact absurd hmem (Clear.notMem hacyclic hτ)
  | blocked _ _ _ _ ih =>
    obtain ⟨o', ho, hS', hr, -⟩ := ih hS fun y hy => Clear.needs hS hτ hy
    exact ⟨o', ho.of_insert, hS', hr, trivial⟩
  | @hit A S S₁ S₂ x _ hA h hscan ih ih' =>
    obtain ⟨o₁, ho₁, hS₁, -⟩ := ih hS fun y hy => Clear.needs hS hτ hy
    obtain ⟨o₂, ho₂, hS₂, -⟩ := ih' hS₁ ((Clear.scan hτ).later ho₁)
    have hneeds : ∀ y ∈ G.needs x, y ∈ o₂ := fun y hy =>
      hS₂.memo y (hscan.grows.memo (h.replies.2 rfl y hy))
    obtain ⟨-, m, -, g, hg, hm⟩ := hscan.replies.resolve_left (by simp)
    have hmem := (Graph.mem_bucket.mp (List.mem_of_getElem? hg)).1
    have ha : G.alike x g := hm.elim (fun h => h ▸ hG.refl g) fun h => h.2.1
    exact ⟨completed o₂ x, (ho₁.trans ho₂).of_insert.trans (later_completed hA),
      hS₂.complete hA hneeds hS₂.entries (List.prefix_refl _)
        hS₂.unique (fun _ => ⟨g, hmem, ha⟩) rfl rfl,
      by simp, trivial⟩
  | exhausted _ _ _ _ _ ih ih' =>
    obtain ⟨o₁, ho₁, hS₁, -⟩ := ih hS fun y hy => Clear.needs hS hτ hy
    obtain ⟨o₂, ho₂, hS₂, -⟩ := ih' hS₁ ((Clear.scan hτ).later ho₁)
    exact ⟨o₂, (ho₁.trans ho₂).of_insert, hS₂, by simp, trivial⟩
  | @evaluate A S S₁ S₂ x _ hA h hscan h0 ih ih' =>
    obtain ⟨o₁, ho₁, hS₁, -⟩ := ih hS fun y hy => Clear.needs hS hτ hy
    obtain ⟨o₂, ho₂, hS₂, -, hmiss⟩ := ih' hS₁ ((Clear.scan hτ).later ho₁)
    have hneeds : ∀ y ∈ G.needs x, y ∈ o₂ := fun y hy =>
      hS₂.memo y (hscan.grows.memo (h.replies.2 rfl y hy))
    -- An entry that is alike would have been in the bucket.
    have hnone : ∀ g ∈ S₂.entries, ¬ G.alike g x := by
      intro g hg ha
      have ha := hG.symm g x ha
      obtain ⟨m, hm⟩ := List.getElem?_of_mem (Graph.mem_bucket.mpr ⟨hg, hG.hash x g ha⟩)
      exact hmiss h0 m g (Nat.zero_le m) hm ha
    refine ⟨completed o₂ x, (ho₁.trans ho₂).of_insert.trans (later_completed hA),
      ?_, by simp, trivial⟩
    refine hS₂.complete hA hneeds (fun g hg => ?_) (List.prefix_append _ _)
      ?_ (fun hk => ?_) rfl rfl
    · rcases List.mem_append.mp hg with hg | hg
      · exact hS₂.entries g hg
      · split at hg
        · next hknown =>
          rw [List.mem_singleton.mp hg]
          exact ⟨hknown, hneeds⟩
        · cases hg
    · rw [List.pairwise_append]
      refine ⟨hS₂.unique, by split <;> simp, fun g hg z hz => ?_⟩
      split at hz
      · rw [List.mem_singleton.mp hz]
        exact hnone g hg
      · cases hz
    · exact ⟨x, by simp [hk], hG.refl x⟩
  | nil => exact ⟨o, .refl _ o, hS, by simp, trivial⟩
  | cons _ _ ih ih' =>
    obtain ⟨o₁, ho₁, hS₁, -⟩ := ih hS (hτ _ List.mem_cons_self)
    obtain ⟨o₂, ho₂, hS₂, hr, -⟩ := ih' hS₁ fun y hy =>
      Clear.later (hτ y (List.mem_cons_of_mem _ hy)) ho₁
    exact ⟨o₂, ho₁.trans ho₂, hS₂, hr, trivial⟩
  | stop _ _ ih =>
    obtain ⟨o₁, ho₁, hS₁, hr, -⟩ := ih hS (hτ _ List.mem_cons_self)
    exact ⟨o₁, ho₁, hS₁, hr, trivial⟩
  | last hnone =>
    refine ⟨o, .refl _ o, hS, by simp, fun _ m g hm hg => ?_⟩
    have hlen := List.getElem?_eq_none_iff.mp hnone
    have hlt := (List.getElem?_eq_some_iff.mp hg).1
    omega
  | own _ => exact ⟨o, .refl _ o, hS, by simp, trivial⟩
  | unlike hg _ hc hrest ih =>
    obtain ⟨o₁, ho₁, hS₁, hr, hmiss⟩ := ih hS hτ
    refine ⟨o₁, ho₁, hS₁, hr, hmiss.next fun _ _ g' hg' ha => ?_⟩
    obtain rfl := Option.some.inj ((hrest.grows.getElem?_bucket hg).symm.trans hg')
    exact hc (hG.comparable _ _ ha)
  | @skip A S S₁ S₂ x g n r r' hg _ _ hr hask hrest ih ih' =>
    obtain ⟨hmem, hkey⟩ := Graph.mem_bucket.mp (List.mem_of_getElem? hg)
    have ha := hhash _ _ hkey.symm
    obtain ⟨o₁, ho₁, hS₁, hcycle, -⟩ := ih hS fun y hy => ScanClear.needs hG hS hτ hmem ha hy
    obtain ⟨o₂, ho₂, hS₂, hr', hmiss⟩ := ih' hS₁ (ScanClear.later hτ ho₁)
    refine ⟨o₂, ho₁.trans ho₂, hS₂, hr', hmiss.next fun _ hrem => absurd ?_ hrem⟩
    -- The comparison was exhausted, so nothing is left.
    refine hrest.grows.remaining_eq_zero (hask.remaining_eq_zero ?_)
    cases r with
    | done => exact absurd rfl hr
    | missed => exact absurd rfl hask.replies.1
    | exhausted => rfl
    | cycle => exact absurd rfl hcycle
  | differ hg _ _ hask hd hrest ih ih' =>
    obtain ⟨hmem, hkey⟩ := Graph.mem_bucket.mp (List.mem_of_getElem? hg)
    exact absurd (hhash _ _ hkey.symm) hd
  | same hg _ _ _ ha ih =>
    have hmem := (Graph.mem_bucket.mp (List.mem_of_getElem? hg)).1
    obtain ⟨o₁, ho₁, hS₁, -⟩ := ih hS fun y hy => ScanClear.needs hG hS hτ hmem ha hy
    exact ⟨o₁, ho₁, hS₁, by simp, trivial⟩

end MlirInterpreter.Sharing
