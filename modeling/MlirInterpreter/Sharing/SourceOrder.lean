import MlirInterpreter.Sharing.Machine

/-!
# In order, one step per node is enough

The nodes of a program, each of which needs earlier ones only, are asked for in their order
(`InOrder`).  Then every node asked for before is there for nothing: its entry, or that of an
earlier node alike, comes first among those it could be compared with (`InOrder.ask`).  So the next
node costs the one step it is evaluated with, and nothing if it is like an earlier one
(`InOrder.next`).

Hashes may collide.
-/

set_option autoImplicit false

namespace MlirInterpreter.Sharing

variable {α κ : Type} [DecidableEq κ] {G : Graph α κ} {A : Finset α}
  {S S' T : State α} {r : Reply} {x : α} {l : List α}

/-! ## Runs that cost nothing -/

/-- Nothing was paid for, and no entry was made. -/
structure Costless (S T : State α) : Prop where
  entries : T.entries = S.entries
  evaluated : T.evaluated = S.evaluated
  remaining : T.remaining = S.remaining

theorem Costless.refl (S : State α) : Costless S S := ⟨rfl, rfl, rfl⟩

theorem Costless.trans (h : Costless S S') (h' : Costless S' T) : Costless S T :=
  ⟨h'.entries.trans h.entries, h'.evaluated.trans h.evaluated, h'.remaining.trans h.remaining⟩

theorem Costless.memoize (h : Costless S T) (x : α) : Costless S (T.memoize x) :=
  ⟨h.entries, h.evaluated, h.remaining⟩

theorem Costless.bucket (h : Costless S T) (x : α) : G.bucket T x = G.bucket S x := by
  rw [Graph.bucket, Graph.bucket, h.entries]

variable [DecidableEq α]

/-- While the nodes of `A` are being computed, the node is computed for nothing, from now on. -/
def ForFree (G : Graph α κ) (A : Finset α) (S : State α) (y : α) : Prop :=
  ∀ S' T r, Costless S S' → Run G A S' (.ask y) r T → r = .done ∧ Costless S' T

theorem ForFree.mono {y : α} (h : ForFree G A S y) (hS : Costless S S') : ForFree G A S' y :=
  fun S'' T r hS' => h S'' T r (hS.trans hS')

theorem Run.askAll_costless (h : Run G A S (.askAll l) r T) (hl : ∀ y ∈ l, ForFree G A S y) :
    r = .done ∧ Costless S T := by
  induction l generalizing S with
  | nil => cases h; exact ⟨rfl, .refl _⟩
  | cons y l ih =>
    have hy := hl y List.mem_cons_self
    cases h with
    | cons h h' =>
      have hS := (hy _ _ _ (.refl _) h).2
      obtain ⟨hr, hT⟩ := ih h' fun z hz => (hl z (List.mem_cons_of_mem _ hz)).mono hS
      exact ⟨hr, hS.trans hT⟩
    | stop hr h => exact absurd (hy _ _ _ (.refl _) h).1 hr

/-- A scan up to the end of the bucket, or up to an entry that matches. -/
theorem Run.scan_costless {m n : ℕ} (h : Run G A S (.scan x n) r T) (hn : n ≤ m)
    (hfree : ∀ i g, i ≤ m → (G.bucket S x)[i]? = some g → ∀ y ∈ G.needs g, ForFree G A S y)
    (hend : ∀ g, (G.bucket S x)[m]? = some g → g = x ∨ G.comparable x g ∧ G.alike x g) :
    Costless S T ∧ ((G.bucket S x)[m]? ≠ none → r = .done) := by
  obtain ⟨k, rfl⟩ := Nat.exists_eq_add_of_le hn
  induction k generalizing n S with
  | zero =>
    rcases hg : (G.bucket S x)[n]? with _ | g
    · obtain ⟨rfl, rfl⟩ := h.scan_last hg
      exact ⟨.refl _, fun hne => absurd rfl hne⟩
    · rcases eq_or_ne g x with rfl | hne
      · obtain ⟨rfl, rfl⟩ := h.scan_own hg
        exact ⟨.refl _, fun _ => rfl⟩
      · obtain ⟨hc, ha⟩ := (hend g hg).resolve_left hne
        obtain ⟨s, S₁, hask, hcase⟩ := h.scan_compared hg hne hc
        obtain ⟨hs, hS⟩ := hask.askAll_costless (hfree _ _ le_rfl hg)
        rcases hcase with ⟨-, -, hr, rfl⟩ | ⟨hn, -⟩
        · exact ⟨hS, fun _ => hr⟩
        · exact absurd ⟨hs, ha⟩ hn
  | succ k ih =>
    have ask : ∀ {g : α} {S' : State α} {r : Reply}, (G.bucket S x)[n]? = some g →
        Run G A S (.askAll (G.needs g)) r S' → r = .done ∧ Costless S S' := fun hg h =>
      h.askAll_costless (hfree _ _ (Nat.le_add_right _ _) hg)
    -- The rest of the scan starts one position nearer to the end.
    have rest : ∀ {S' : State α}, Costless S S' → Run G A S' (.scan x (n + 1)) r T →
        Costless S T ∧ ((G.bucket S x)[n + (k + 1)]? ≠ none → r = .done) := by
      intro S' hS h'
      have hpos : n + (k + 1) = n + 1 + k := by omega
      rw [hpos] at hfree hend ⊢
      rw [← hS.bucket (G := G)] at hfree hend ⊢
      obtain ⟨hT, hr⟩ := ih h' (Nat.le_add_right _ _)
        (fun i g hi hg y hy => (hfree i g hi hg y hy).mono hS) hend
      exact ⟨hS.trans hT, hr⟩
    cases h with
    | last h =>
      refine ⟨.refl _, fun hne => absurd (List.getElem?_eq_none_iff.mpr ?_) hne⟩
      exact (List.getElem?_eq_none_iff.mp h).trans (Nat.le_add_right _ _)
    | own _ => exact ⟨.refl _, fun _ => rfl⟩
    | unlike _ _ _ hrest => exact rest (.refl _) hrest
    | skip hg _ _ hr h _ => exact absurd (ask hg h).1 hr
    | differ hg _ _ h _ hrest => exact rest (ask hg h).2 hrest
    | same hg _ _ h _ => exact ⟨(ask hg h).2, fun _ => rfl⟩

/-! ## Nodes in order -/

/-- The nodes of a program: each needs earlier ones, and all are known. -/
structure Ordered (G : Graph α κ) (index : α → ℕ) (N : Set α) : Prop where
  needs : ∀ x ∈ N, ∀ y ∈ G.needs x, y ∈ N ∧ index y < index x
  known : ∀ x ∈ N, G.known x = true
  injective : Set.InjOn index N

/-- The nodes before position `k` were asked for in order. -/
structure InOrder (G : Graph α κ) (index : α → ℕ) (N : Set α) (k : ℕ) (S : State α) : Prop where
  sorted : S.entries.Pairwise fun g h => index g < index h
  entries : ∀ g ∈ S.entries, g ∈ N ∧ index g < k
  kept : ∀ x ∈ N, index x < k → ∃ g ∈ S.entries, G.alike x g ∧ index g ≤ index x

variable {index : α → ℕ} {N : Set α} {k : ℕ}

omit [DecidableEq α] [DecidableEq κ] in
theorem InOrder.mono (h : InOrder G index N k S) (hS : T.entries = S.entries) :
    InOrder G index N k T :=
  ⟨hS ▸ h.sorted, hS ▸ h.entries, hS ▸ h.kept⟩

omit [DecidableEq α] [DecidableEq κ] in
/-- There is no node at position `k`. -/
theorem InOrder.skip (h : InOrder G index N k S) (hk : ∀ x ∈ N, index x ≠ k) :
    InOrder G index N (k + 1) S where
  sorted := h.sorted
  entries g hg := ⟨(h.entries g hg).1, Nat.lt_succ_of_lt (h.entries g hg).2⟩
  kept x hx hlt := h.kept x hx (lt_of_le_of_ne (Nat.lt_succ_iff.mp hlt) (hk x hx))

omit [DecidableEq α] in
/-- The earlier candidates of a bucket are earlier nodes. -/
theorem InOrder.index_le (h : InOrder G index N k S) {i m : ℕ} {g e : α} (hi : i ≤ m)
    (hg : (G.bucket S x)[i]? = some g) (he : (G.bucket S x)[m]? = some e) : index g ≤ index e := by
  have hsorted : (G.bucket S x).Pairwise fun g h => index g < index h := h.sorted.filter _
  rcases Nat.eq_or_lt_of_le hi with rfl | hlt
  · exact (congrArg index (Option.some.inj (hg.symm.trans he))).le
  · obtain ⟨hi', rfl⟩ := List.getElem?_eq_some_iff.mp hg
    obtain ⟨hm', rfl⟩ := List.getElem?_eq_some_iff.mp he
    exact (List.pairwise_iff_getElem.mp hsorted i m hi' hm' hlt).le

/-- **What was asked for before costs nothing**, while only later nodes are being computed. -/
theorem InOrder.ask (hG : G.Lawful) (hN : Ordered G index N)
    (hS : InOrder G index N k S) (hx : x ∈ N)
    (hk : index x < k) (hA : ∀ y ∈ A, index x < index y) : ForFree G A S x := by
  induction hi : index x using Nat.strong_induction_on generalizing x A with
  | _ i ih =>
    subst hi
    intro S' T r hS' h
    -- While `x` is being computed, the nodes before it cost nothing.
    have before : ∀ y ∈ N, index y < index x → ForFree G (Insert.insert x A) S' y := by
      intro y hy hlt
      refine (ih (index y) hlt hy (hlt.trans hk) (fun z hz => ?_) rfl).mono hS'
      rcases Finset.mem_insert.mp hz with rfl | hz
      · exact hlt
      · exact hlt.trans (hA z hz)
    have needs : ∀ {r : Reply} {U : State α},
        Run G (Insert.insert x A) S' (.askAll (G.needs x)) r U →
        r = .done ∧ Costless S' U := fun h =>
      h.askAll_costless fun y hy => before y (hN.needs x hx y hy).1 (hN.needs x hx y hy).2
    have scan : ∀ {r : Reply} {U V : State α}, Costless S' U →
        Run G (Insert.insert x A) U (.scan x 0) r V → r = .done ∧ Costless U V := by
      intro r U V hU h
      have hUS : Costless S U := hS'.trans hU
      have hO : InOrder G index N k U := hS.mono hUS.entries
      obtain ⟨e, he, halike, hle⟩ := hO.kept x hx hk
      obtain ⟨m, hm⟩ := List.getElem?_of_mem (Graph.mem_bucket.mpr ⟨he, hG.hash x e halike⟩)
      -- Up to this entry all candidates are earlier nodes, and so are their needs.
      have hfree : ∀ i g, i ≤ m → (G.bucket U x)[i]? = some g → ∀ y ∈ G.needs g,
          ForFree G (Insert.insert x A) U y := by
        intro i g hi hg y hy
        have hgN := (hO.entries g (Graph.mem_bucket.mp (List.mem_of_getElem? hg)).1).1
        obtain ⟨hyN, hlt⟩ := hN.needs g hgN y hy
        exact (before y hyN (hlt.trans_le ((hO.index_le hi hg hm).trans hle))).mono hU
      have hend : ∀ g, (G.bucket U x)[m]? = some g → g = x ∨ G.comparable x g ∧ G.alike x g := by
        intro g hg
        obtain rfl := Option.some.inj (hg.symm.trans hm)
        exact Or.inr ⟨hG.comparable x g halike, halike⟩
      obtain ⟨hV, hr⟩ := h.scan_costless (Nat.zero_le m) hfree hend
      exact ⟨hr (by simp [hm]), hV⟩
    cases h with
    | memo _ => exact ⟨rfl, .refl S'⟩
    | cycle _ hmem => exact absurd (hA x hmem) (lt_irrefl _)
    | blocked _ _ hr h => exact absurd (needs h).1 hr
    | hit _ _ h hscan =>
      have hU := (needs h).2
      exact ⟨rfl, (hU.trans (scan hU hscan).2).memoize x⟩
    | exhausted _ _ h hscan _ => cases (scan (needs h).2 hscan).1
    | evaluate _ _ h hscan _ => cases (scan (needs h).2 hscan).1

/-- **The next node costs a step, if anything.** -/
theorem InOrder.next (hG : G.Lawful) (hN : Ordered G index N) (hS : InOrder G index N (index x) S)
    (hx : x ∈ N) (hmemo : x ∉ S.memo) (hrem : S.remaining ≠ 0) (h : Run G ∅ S (.ask x) r T) :
    r = .done ∧ InOrder G index N (index x + 1) T ∧
      (T.evaluated = S.evaluated ∨ T.evaluated = x :: S.evaluated) := by
  have before : ∀ y ∈ N, index y < index x → ForFree G (Insert.insert x ∅) S y := fun y hy hlt =>
    hS.ask hG hN hy hlt (by simpa using hlt)
  have needs : ∀ {r : Reply} {U : State α}, Run G (Insert.insert x ∅) S (.askAll (G.needs x)) r U →
      r = .done ∧ Costless S U := fun h =>
    h.askAll_costless fun y hy => before y (hN.needs x hx y hy).1 (hN.needs x hx y hy).2
  have scan : ∀ {r : Reply} {U V : State α}, Costless S U →
      Run G (Insert.insert x ∅) U (.scan x 0) r V → Costless U V := by
    intro r U V hU h
    have hO : InOrder G index N (index x) U := hS.mono hU.entries
    refine (h.scan_costless (Nat.zero_le (G.bucket U x).length) (fun i g _ hg y hy => ?_) ?_).1
    · obtain ⟨hgN, hgx⟩ := hO.entries g (Graph.mem_bucket.mp (List.mem_of_getElem? hg)).1
      obtain ⟨hyN, hlt⟩ := hN.needs g hgN y hy
      exact (before y hyN (hlt.trans hgx)).mono hU
    · simp
  cases h with
  | memo h => exact absurd h hmemo
  | cycle _ h => simp at h
  | blocked _ _ hr h => exact absurd (needs h).1 hr
  | hit _ _ h hscan =>
    have hU := (needs h).2
    have hV := hU.trans (scan hU hscan)
    have hO := hS.mono hV.entries
    refine ⟨rfl, ⟨hO.sorted, fun g hg => ?_, fun y hy hlt => ?_⟩, Or.inl hV.evaluated⟩
    · exact ⟨(hO.entries g hg).1, Nat.lt_succ_of_lt (hO.entries g hg).2⟩
    · rcases Nat.lt_succ_iff_lt_or_eq.mp hlt with hlt | heq
      · exact hO.kept y hy hlt
      · obtain rfl := hN.injective hy hx heq
        -- The entry that was found is not its own.
        obtain ⟨-, m, -, g, hg, hm⟩ := hscan.replies.resolve_left (by simp)
        have hmem := (Graph.mem_bucket.mp (List.mem_of_getElem? hg)).1
        have hgx := (hO.entries g hmem).2
        have hne : g ≠ y := fun h => lt_irrefl _ (h ▸ hgx)
        exact ⟨g, hmem, (hm.resolve_left hne).2.1, hgx.le⟩
  | exhausted _ _ h hscan h0 =>
    have hU := (needs h).2
    exact absurd ((hU.trans (scan hU hscan)).remaining.symm.trans h0) hrem
  | @evaluate _ _ _ V _ _ _ h hscan h0 =>
    have hU := (needs h).2
    have hV := hU.trans (scan hU hscan)
    have hO := hS.mono hV.entries
    have hentries : (V.evaluate G x).entries = V.entries ++ [x] := by
      rw [State.evaluate, if_pos (hN.known x hx)]
    refine ⟨rfl, ⟨?_, fun g hg => ?_, fun y hy hlt => ?_⟩, Or.inr (congrArg _ hV.evaluated)⟩
    · rw [hentries, List.pairwise_append]
      refine ⟨hO.sorted, List.pairwise_singleton _ _, fun g hg h hh => ?_⟩
      rw [List.mem_singleton.mp hh]
      exact (hO.entries g hg).2
    · rw [hentries, List.mem_append, List.mem_singleton] at hg
      rcases hg with hg | rfl
      · exact ⟨(hO.entries g hg).1, Nat.lt_succ_of_lt (hO.entries g hg).2⟩
      · exact ⟨hx, Nat.lt_succ_self _⟩
    · rw [hentries]
      rcases Nat.lt_succ_iff_lt_or_eq.mp hlt with hlt | heq
      · obtain ⟨g, hg, hkept⟩ := hO.kept y hy hlt
        exact ⟨g, List.mem_append_left _ hg, hkept⟩
      · obtain rfl := hN.injective hy hx heq
        exact ⟨y, by simp, hG.refl y, le_rfl⟩

end MlirInterpreter.Sharing
