import MlirInterpreter.Sharing.Machine

/-!
# More budget does not hurt

Two runs of the machine for one task, from the same memo and entries, with a smaller and a larger
budget.

They are in lockstep (`Locked`) until the first one cannot pay.  From then on it has nothing left,
so all it still computes it finds for free (`Free`), and that the second run can do too, whatever
else it has paid for (`Ahead`).  The node for which that is not obvious is one that the second run
is just computing.  But such a node is being computed by the first run as well, and then it is not
memoized (`Run.disjoint`).

`Run.done_of_le` is the conclusion: what is done with a budget is done with a larger one.
-/

set_option autoImplicit false

namespace MlirInterpreter.Sharing

variable {α κ : Type} [DecidableEq κ] {G : Graph α κ} {A : Finset α}
  {S S' T T' : State α} {τ : Task α} {r r' : Reply} {x : α} {l : List α}

/-! ## Nodes that are free -/

/-- The candidate `g` is found to be the entry of `x` when the nodes that satisfy `M` are there. -/
def Matches (G : Graph α κ) (M : α → Prop) (x g : α) : Prop :=
  g = x ∨ G.comparable x g ∧ G.alike x g ∧ ∀ y ∈ G.needs g, M y

/-- The nodes of a list can be memoized for free, the last one first. -/
inductive Free (G : Graph α κ) (S : State α) : List α → Prop
  | nil : Free G S []
  | cons {l : List α} {x g : α} (h : Free G S l) (hneeds : ∀ y ∈ G.needs x, y ∈ S.memo ∨ y ∈ l)
    (hg : g ∈ G.bucket S x) (hm : Matches G (fun y => y ∈ S.memo ∨ y ∈ l) x g) : Free G S (x :: l)

omit [DecidableEq κ] in
theorem Matches.mono {M M' : α → Prop} {g : α} (h : Matches G M x g) (hM : ∀ y, M y → M' y) :
    Matches G M' x g :=
  h.imp id fun h => ⟨h.1, h.2.1, fun y hy => hM y (h.2.2 y hy)⟩

theorem Free.grows (h : Free G S l) (hS : Grows S S') : Free G S' l := by
  have memo : ∀ {l : List α} y, y ∈ S.memo ∨ y ∈ l → y ∈ S'.memo ∨ y ∈ l := fun y hy =>
    hy.imp (fun hy => hS.memo hy) id
  induction h with
  | nil => exact .nil
  | cons _ hneeds hg hm ih =>
    exact .cons ih (fun y hy => memo y (hneeds y hy)) ((hS.bucket _).subset hg) (hm.mono memo)

section

variable [DecidableEq α]

/-- A scan does not pass the entry, if the needs of its node can be computed. -/
theorem Run.scan_done {m n : ℕ} {g : α} {M : α → Prop} (h : Run G A S (.scan x n) r T)
    (hask : ∀ y, M y → ∀ S' T r, Grows S S' → Run G A S' (.ask y) r T → r = .done) (hn : n ≤ m)
    (hg : (G.bucket S x)[m]? = some g) (hm : Matches G M x g) : r = .done := by
  obtain ⟨k, rfl⟩ := Nat.exists_eq_add_of_le hn
  induction k generalizing n S with
  | zero =>
    rw [Nat.add_zero] at hg
    rcases eq_or_ne g x with rfl | hne
    · exact (h.scan_own hg).1
    · obtain ⟨hc, ha, hneeds⟩ := hm.resolve_left hne
      obtain ⟨s, S₁, hask', ⟨-, -, hr, -⟩ | ⟨hn, -⟩⟩ := h.scan_compared hg hne hc
      · exact hr
      · exact absurd ⟨hask'.askAll_done hask hneeds, ha⟩ hn
  | succ k ih =>
    -- The rest of the scan starts one position nearer to the entry.
    have rest : ∀ {S' : State α}, Grows S S' → Run G A S' (.scan x (n + 1)) r T → r = .done := by
      intro S' hS h'
      have hpos : n + (k + 1) = n + 1 + k := by omega
      rw [hpos] at hg
      exact ih h' (fun y hy S'' T r hS' => hask y hy S'' T r (hS.trans hS'))
        (Nat.le_add_right _ _) (hS.getElem?_bucket hg)
    cases h with
    | last h =>
      have hlen := List.getElem?_eq_none_iff.mp h
      have hlen' := (List.getElem?_eq_some_iff.mp hg).1
      omega
    | own _ => rfl
    | unlike _ _ _ hrest => exact rest (.refl S) hrest
    | skip _ _ _ _ hask' hrest => exact rest hask'.grows hrest
    | differ _ _ _ hask' _ hrest => exact rest hask'.grows hrest
    | same _ _ _ _ _ => rfl

/-- **Nodes that are free are computed with any budget**, unless they are being computed. -/
theorem Free.ask (h : Free G S l) (hS : Grows S S') (hA : ∀ y ∈ A, y ∉ l) (hx : x ∈ S.memo ∨ x ∈ l)
    (hr : Run G A S' (.ask x) r T) : r = .done := by
  induction h generalizing A S' T x r with
  | nil => exact (hr.ask_memo (hS.memo (hx.resolve_right List.not_mem_nil))).1
  | @cons l z g hfree hneeds hg hm ih =>
    have hAl : ∀ y ∈ A, y ∉ l := fun y hy hmem => hA y hy (List.mem_cons_of_mem _ hmem)
    by_cases hold : x ∈ S.memo ∨ x ∈ l
    · exact ih hS hAl hold hr
    · obtain ⟨hxS, hxl⟩ := not_or.mp hold
      obtain rfl : x = z := (List.mem_cons.mp (hx.resolve_left hxS)).resolve_right hxl
      -- While `x` is being computed, the nodes before it are still free.
      have hask : ∀ y, y ∈ S.memo ∨ y ∈ l → ∀ U T r, Grows S' U →
          Run G (Insert.insert x A) U (.ask y) r T → r = .done := by
        refine fun y hy U T r hU => ih (hS.trans hU) (fun u hu hmem => ?_) hy
        rcases Finset.mem_insert.mp hu with rfl | hu
        · exact hxl hmem
        · exact hAl u hu hmem
      have hscan : ∀ {U T : State α} {r : Reply}, Grows S' U →
          Run G (Insert.insert x A) U (.scan x 0) r T → r = .done := by
        intro U T r hU h
        obtain ⟨m, hm'⟩ := List.getElem?_of_mem hg
        exact h.scan_done (fun y hy V T r hV => hask y hy V T r (hU.trans hV)) (Nat.zero_le m)
          ((hS.trans hU).getElem?_bucket hm') hm
      cases hr with
      | memo _ => rfl
      | cycle _ hmem => exact absurd List.mem_cons_self (hA x hmem)
      | blocked _ _ hne h => exact h.askAll_done hask hneeds
      | hit _ _ _ _ => rfl
      | exhausted _ _ h hmiss _ => cases hscan h.grows hmiss
      | evaluate _ _ _ _ _ => rfl

end

/-! ## The run that has nothing left -/

/-- The run in `S` has nothing left, and the one in `S'` can do for free what the other one has
memoized. -/
structure Ahead (G : Graph α κ) (S S' : State α) : Prop where
  spent : S.remaining = 0
  entries : S.entries <+: S'.entries
  free : ∃ l, Free G S' l ∧ (∀ x ∈ S.memo, x ∈ S'.memo ∨ x ∈ l) ∧ ∀ x ∈ l, x ∈ S.memo

theorem Ahead.bucket (h : Ahead G S S') (x : α) : G.bucket S x <+: G.bucket S' x :=
  h.entries.filter _

/-- The other run goes on. -/
theorem Ahead.grows (h : Ahead G S S') (hS : Grows S' T') : Ahead G S T' := by
  obtain ⟨l, hfree, hmemo, hl⟩ := h.free
  exact ⟨h.spent, h.entries.trans hS.entries, l, hfree.grows hS,
    fun x hx => (hmemo x hx).imp (fun hx => hS.memo hx) id, hl⟩

section

variable [DecidableEq α]

/-- The run that has nothing left goes on: what it computes it finds. -/
theorem Run.ahead (h : Run G A S τ r T) (hS : Ahead G S S') : Ahead G T S' := by
  induction h with
  | memo _ => exact hS
  | cycle _ _ => exact hS
  | blocked _ _ _ _ ih => exact ih hS
  | @hit A S S₁ S₂ x _ _ h hscan ih ih' =>
    have h₂ := ih' (ih hS)
    obtain ⟨l, hfree, hmemo, hl⟩ := h₂.free
    refine ⟨h₂.spent, h₂.entries, ?_⟩
    by_cases hx : x ∈ S'.memo ∨ x ∈ l
    · refine ⟨l, hfree, fun y hy => ?_, fun y hy => Set.mem_insert_of_mem _ (hl y hy)⟩
      rcases Set.mem_insert_iff.mp hy with rfl | hy
      · exact hx
      · exact hmemo y hy
    · have hneeds : ∀ y ∈ G.needs x, y ∈ S₂.memo := fun y hy =>
        hscan.grows.memo (h.replies.2 rfl y hy)
      obtain ⟨-, m, -, g, hg, hm⟩ := hscan.replies.resolve_left (by simp)
      refine ⟨x :: l, .cons hfree (fun y hy => hmemo y (hneeds y hy))
        ((h₂.bucket x).subset (List.mem_of_getElem? hg)) (Matches.mono hm hmemo), fun y hy => ?_,
        fun y hy => ?_⟩
      · rcases Set.mem_insert_iff.mp hy with rfl | hy
        · exact Or.inr List.mem_cons_self
        · exact (hmemo y hy).imp id (List.mem_cons_of_mem _)
      · rcases List.mem_cons.mp hy with rfl | hy
        · exact Set.mem_insert _ _
        · exact Set.mem_insert_of_mem _ (hl y hy)
  | exhausted _ _ _ _ _ ih ih' => exact ih' (ih hS)
  | evaluate _ _ _ _ h0 ih ih' => exact absurd (ih' (ih hS)).spent h0
  | nil => exact hS
  | cons _ _ ih ih' => exact ih' (ih hS)
  | stop _ _ ih => exact ih hS
  | last _ => exact hS
  | own _ => exact hS
  | unlike _ _ _ _ ih => exact ih hS
  | skip _ _ _ _ _ _ ih ih' => exact ih' (ih hS)
  | differ _ _ _ _ _ _ ih ih' => exact ih' (ih hS)
  | same _ _ _ _ _ ih => exact ih hS

/-- **Whatever the run that has nothing left still gets done, the other one gets done too.** -/
theorem Ahead.run (hS : Ahead G S S') (hA : ∀ y ∈ A, y ∉ S.memo) (h : Run G A S τ r T)
    (h' : Run G A S' τ r' T') : Ahead G T T' ∧ (r = .done → r' = .done) := by
  have hT := h.ahead hS
  refine ⟨hT.grows h'.grows, ?_⟩
  rintro rfl
  obtain ⟨l, hfree, hmemo, hl⟩ := hT.free
  have hAl : ∀ y ∈ A, y ∉ l := fun y hy hmem => h.disjoint hA y hy (hl y hmem)
  have hask : ∀ y, y ∈ S'.memo ∨ y ∈ l → ∀ U V r, Grows S' U → Run G A U (.ask y) r V → r = .done :=
    fun y hy U V r hU => hfree.ask hU hAl hy
  cases τ with
  | ask x => exact hask x (hmemo x (h.replies.2 rfl)) _ _ _ (.refl S') h'
  | askAll l => exact h'.askAll_done hask fun y hy => hmemo y (h.replies.2 rfl y hy)
  | scan x n =>
    obtain ⟨-, m, hn, g, hg, hm⟩ := h.replies.resolve_left (by simp)
    refine h'.scan_done hask hn ?_ (Matches.mono hm hmemo)
    obtain ⟨k, hk⟩ := hT.bucket x
    rw [← hk, List.getElem?_append_left (List.getElem?_eq_some_iff.mp hg).1, hg]

end

/-! ## Lockstep -/

/-- The runs are in the same state, but for the budget. -/
structure Locked (S S' : State α) : Prop where
  memo : S'.memo = S.memo
  entries : S'.entries = S.entries
  remaining : S.remaining ≤ S'.remaining

/-- The runs have replied `r` and `r'`: the same in lockstep, or else the second one is ahead. -/
def Follows (G : Graph α κ) (r r' : Reply) (S S' : State α) : Prop :=
  r' = r ∧ Locked S S' ∨ Ahead G S S' ∧ (r = .done → r' = .done)

theorem Locked.getElem?_bucket (h : Locked S S') {n : ℕ} {o : Option α}
    (hg : (G.bucket S x)[n]? = o) : (G.bucket S' x)[n]? = o := by
  rwa [Graph.bucket, h.entries]

theorem Locked.memoize (h : Locked S S') (x : α) : Locked (S.memoize x) (S'.memoize x) :=
  ⟨congrArg (Insert.insert x) h.memo, h.entries, h.remaining⟩

omit [DecidableEq κ] in
theorem Locked.evaluate (h : Locked S S') (x : α) : Locked (S.evaluate G x) (S'.evaluate G x) :=
  ⟨congrArg (Insert.insert x) h.memo, congrArg (· ++ _) h.entries,
    Nat.sub_le_sub_right h.remaining 1⟩

theorem Locked.ahead (h : Locked S S') (h0 : S.remaining = 0) : Ahead G S S' :=
  ⟨h0, h.entries ▸ List.prefix_refl _, [], .nil, fun _ hx => Or.inl (h.memo ▸ hx), by simp⟩

theorem Follows.done (h : Follows G .done r' S S') : r' = .done := h.elim And.left fun h => h.2 rfl

theorem Follows.ahead_of_ne (h : Follows G r r' S S') (hne : r' ≠ r) : Ahead G S S' :=
  (h.resolve_left fun h => hne h.1).1

theorem Follows.ahead_of_spent (h : Follows G r r' S S') (h0 : S.remaining = 0) : Ahead G S S' :=
  h.elim (fun h => h.2.ahead h0) And.left

theorem Follows.locked (h : Follows G r r' S S') (h0 : S.remaining ≠ 0) : r' = r ∧ Locked S S' :=
  h.resolve_right fun h => h0 h.1.spent

theorem Follows.of_ahead (h : Ahead G S S') (hr : r ≠ .done) : Follows G r r' S S' :=
  Or.inr ⟨h, fun hd => absurd hd hr⟩

/-- Both runs go on with one task. -/
theorem Follows.next [DecidableEq α] {r₁ r₁' : Reply} (h : Follows G r₁ r₁' S S')
    (hA : ∀ y ∈ A, y ∉ S.memo) (h₂ : Run G A S τ r T)
    (h₂' : Run G A S' τ r' T') (ih : Locked S S' → Follows G r r' T T') :
    Follows G r r' T T' :=
  h.elim (fun h => ih h.2) fun h => Or.inr (h.1.run hA h₂ h₂')

theorem Follows.memoize (h : Follows G .done .done S S') (x : α) :
    Follows G .done .done (S.memoize x) (S'.memoize x) := by
  rcases h with ⟨-, h⟩ | ⟨h, -⟩
  · exact Or.inl ⟨rfl, h.memoize x⟩
  · obtain ⟨l, hfree, hmemo, hl⟩ := h.free
    refine Or.inr ⟨⟨h.spent, h.entries, l, hfree.grows (.memoize _ _), fun y hy => ?_,
      fun y hy => Set.mem_insert_of_mem _ (hl y hy)⟩, fun _ => rfl⟩
    rcases Set.mem_insert_iff.mp hy with rfl | hy
    · exact Or.inl (Set.mem_insert _ _)
    · exact (hmemo y hy).imp (Set.mem_insert_of_mem _) id

/-- The scan has replied `s` and `s'`, and the computation of `x` ends. -/
theorem Follows.settles {s s' : Reply} (h : Follows G s s' S S') (hend : Settles G x s S r T)
    (hend' : Settles G x s' S' r' T') : Follows G r r' T T' := by
  cases hend with
  | hit =>
    obtain rfl := h.done
    cases hend'
    exact h.memoize x
  | exhausted h0 => exact .of_ahead ((h.ahead_of_spent h0).grows hend'.grows) (by simp)
  | evaluate h0 =>
    obtain ⟨rfl, hlock⟩ := h.locked h0
    cases hend' with
    | exhausted h0' => exact absurd (Nat.le_zero.mp (h0' ▸ hlock.remaining)) h0
    | evaluate _ => exact Or.inl ⟨rfl, hlock.evaluate x⟩

variable [DecidableEq α]

/-- Both runs compute `x`, the first one up to the scan of its bucket. -/
theorem Follows.ask {s : Reply} {S₁ S₂ : State α} (hS : Locked S S') (hx : x ∉ S.memo)
    (hxA : x ∉ A) (hA : ∀ y ∈ A, y ∉ S.memo)
    (h₁ : Run G (Insert.insert x A) S (.askAll (G.needs x)) .done S₁)
    (hscan : Run G (Insert.insert x A) S₁ (.scan x 0) s S₂) (hend : Settles G x s S₂ r T)
    (ih : ∀ {r' T'}, Run G (Insert.insert x A) S' (.askAll (G.needs x)) r' T' →
      Follows G .done r' S₁ T')
    (ih' : ∀ {S' r' T'}, Locked S₁ S' → (∀ y ∈ Insert.insert x A, y ∉ S₁.memo) →
      Run G (Insert.insert x A) S' (.scan x 0) r' T' → Follows G s r' S₂ T')
    (h' : Run G A S' (.ask x) r' T') : Follows G r r' T T' := by
  have hA₁ := h₁.disjoint (notMem_memo_insert hx hA)
  rcases h'.ask_inv (hS.memo ▸ hx) hxA with ⟨hr, h⟩ | ⟨S₁', s', S₂', h, hscan', hend'⟩
  · exact absurd (ih h).done hr
  · have hscans := (ih h).next hA₁ hscan hscan' fun hlock => ih' hlock hA₁ hscan'
    exact hscans.settles hend hend'

/-- **Two runs of one task are in lockstep, until the second one gets ahead.** -/
theorem Run.follows (h : Run G A S τ r T) (hS : Locked S S') (hA : ∀ y ∈ A, y ∉ S.memo)
    (h' : Run G A S' τ r' T') : Follows G r r' T T' := by
  induction h generalizing S' r' T' with
  | memo hx =>
    obtain ⟨rfl, rfl⟩ := h'.ask_memo (hS.memo ▸ hx)
    exact Or.inl ⟨rfl, hS⟩
  | cycle hx hxA =>
    obtain ⟨rfl, rfl⟩ := h'.ask_cycle (hS.memo ▸ hx) hxA
    exact Or.inl ⟨rfl, hS⟩
  | blocked hx hxA hr _ ih =>
    have first := fun {r₁ S₁} => @ih S' r₁ S₁ hS (notMem_memo_insert hx hA)
    rcases h'.ask_inv (hS.memo ▸ hx) hxA with ⟨-, h⟩ | ⟨S₁, s, S₂, h, hscan, hend⟩
    · exact first h
    · exact .of_ahead (((first h).ahead_of_ne hr.symm).grows (hscan.grows.trans hend.grows)) hr
  | hit hx hxA h₁ hscan ih ih' =>
    exact .ask hS hx hxA hA h₁ hscan .hit (ih hS (notMem_memo_insert hx hA)) ih' h'
  | exhausted hx hxA h₁ hscan h0 ih ih' =>
    exact .ask hS hx hxA hA h₁ hscan (.exhausted h0) (ih hS (notMem_memo_insert hx hA)) ih' h'
  | evaluate hx hxA h₁ hscan h0 ih ih' =>
    exact .ask hS hx hxA hA h₁ hscan (.evaluate h0) (ih hS (notMem_memo_insert hx hA)) ih' h'
  | nil => cases h'; exact Or.inl ⟨rfl, hS⟩
  | cons h₁ h₂ ih ih' =>
    have hA₁ := h₁.disjoint hA
    cases h' with
    | cons h h' => exact (ih hS hA h).next hA₁ h₂ h' fun hlock => ih' hlock hA₁ h'
    | stop hr h => exact absurd (ih hS hA h).done hr
  | stop hr _ ih =>
    cases h' with
    | cons h h' => exact .of_ahead (((ih hS hA h).ahead_of_ne hr.symm).grows h'.grows) hr
    | stop _ h => exact ih hS hA h
  | last hg =>
    obtain ⟨rfl, rfl⟩ := h'.scan_last (hS.getElem?_bucket hg)
    exact Or.inl ⟨rfl, hS⟩
  | own hg =>
    obtain ⟨rfl, rfl⟩ := h'.scan_own (hS.getElem?_bucket hg)
    exact Or.inl ⟨rfl, hS⟩
  | unlike hg hne hc _ ih =>
    exact ih hS hA (h'.scan_unlike (hS.getElem?_bucket hg) hne hc)
  | skip hg hne hc hr hask hrest ih ih' =>
    have hA₁ := hask.disjoint hA
    obtain ⟨s, S₁, hask', hcase⟩ := h'.scan_compared (hS.getElem?_bucket hg) hne hc
    rcases hcase with ⟨rfl, -, rfl, rfl⟩ | ⟨-, hrest'⟩
    · exact Or.inr ⟨hrest.ahead ((ih hS hA hask').ahead_of_ne hr.symm), fun _ => rfl⟩
    · exact (ih hS hA hask').next hA₁ hrest hrest' fun hlock => ih' hlock hA₁ hrest'
  | differ hg hne hc hask hd hrest ih ih' =>
    have hA₁ := hask.disjoint hA
    obtain ⟨s, S₁, hask', hcase⟩ := h'.scan_compared (hS.getElem?_bucket hg) hne hc
    rcases hcase with ⟨-, ha, -, -⟩ | ⟨-, hrest'⟩
    · exact absurd ha hd
    · exact (ih hS hA hask').next hA₁ hrest hrest' fun hlock => ih' hlock hA₁ hrest'
  | same hg hne hc hask ha ih =>
    obtain ⟨s, S₁, hask', hcase⟩ := h'.scan_compared (hS.getElem?_bucket hg) hne hc
    rcases hcase with ⟨rfl, -, rfl, rfl⟩ | ⟨hn, -⟩
    · exact ih hS hA hask'
    · exact absurd ⟨(ih hS hA hask').done, ha⟩ hn

/-- **More budget does not hurt.**  What is done with a budget is done with a larger one. -/
theorem Run.done_of_le (h : Run G A S τ .done T) (hS : Locked S S') (hA : ∀ y ∈ A, y ∉ S.memo)
    (h' : Run G A S' τ r' T') : r' = .done :=
  (h.follows hS hA h').done

end MlirInterpreter.Sharing
