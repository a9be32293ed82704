import MlirInterpreter.Refinement.Methods

/-!
# The engine runs as the machine

Every part of `Engine::compute` and of the cache does what the machine does: the search of a bucket
is a scan (`wp_flat_findEquivalent`), an evaluation pays for a node and keeps it
(`wp_flat_evaluateOp`), and so a nested query of an operation is the task to ask for it
(`wp_flat_compute`).
-/

set_option autoImplicit false

namespace MlirInterpreter

open Recorded Arith

variable {Op Blk σ : Type} {P : Program Op Blk}
  {H : HashFns Op Blk} {mem : Malloc} {s t u : State Op Blk σ APInt}
  {ask : Value Op Blk → EngineM Op Blk σ APInt (Answer APInt)} {op : Op} {key : HashCode} {n : ℕ}

/-! ## Buckets -/

section

variable [DecidableEq Op] [DecidableEq Blk] [Fintype Op]

theorem FlatCache.bucket_map (hs : FlatCache P H s) (hkey : (sharingGraph P H).hash op = .inl key) :
    (s.bucket key).map (fun e => s.cache.arena[e]?.map CacheEntry.op) =
      ((sharingGraph P H).bucket (s.sharing P) op).map some := by
  rw [hs.buckets key, Sharing.Graph.bucket, hkey]
  rfl

/-- A candidate of the engine is one of the machine. -/
theorem FlatCache.candidate (hs : FlatCache P H s) (hkey : (sharingGraph P H).hash op = .inl key)
    {e : ℕ} (h : (s.bucket key)[n]? = some e) : ∃ entry, s.cache.arena[e]? = some entry ∧
      ((sharingGraph P H).bucket (s.sharing P) op)[n]? = some entry.op := by
  have hmap := congrArg (fun l => l[n]?) (hs.bucket_map hkey)
  simp only [List.getElem?_map, h, Option.map_some] at hmap
  obtain ⟨g, hg, hsome⟩ := Option.map_eq_some_iff.mp hmap.symm
  obtain ⟨entry, hentry, rfl⟩ := Option.map_eq_some_iff.mp hsome.symm
  exact ⟨entry, hentry, hg⟩

/-- The buckets end at the same position. -/
theorem FlatCache.bucket_eq_none (hs : FlatCache P H s)
    (hkey : (sharingGraph P H).hash op = .inl key) :
    (s.bucket key)[n]? = none ↔ ((sharingGraph P H).bucket (s.sharing P) op)[n]? = none := by
  have hlen := congrArg List.length (hs.bucket_map hkey)
  rw [List.length_map, List.length_map] at hlen
  rw [List.getElem?_eq_none_iff, List.getElem?_eq_none_iff, hlen]

/-! ## Lookups -/

/-- The bucket was searched from position `n` on. -/
structure Searched (P : Program Op Blk) (H : HashFns Op Blk) (s : State Op Blk σ APInt) (op : Op)
    (key : HashCode) (n : ℕ) (r : Option ℕ × ℕ) (t : State Op Blk σ APInt) : Prop where
  flat : Flat P H t
  keeps : Keeps s t
  run : Sharing.Run (sharingGraph P H) s.engine.active (s.sharing P) (.scan op n)
    (if r.1.isSome then .done else .missed) (t.sharing P)
  found : ∀ e, r.1 = some e → ∃ entry, t.cache.arena[e]? = some entry ∧ SharesKey P op entry.op
  missed : r.1 = none → (t.bucket key)[r.2]? = none

theorem wp_flat_findEquivalent (hP : P.Verified) (harith : P.isArith op = true)
    {model : OpModel Op Blk σ APInt} (hm : (shippedModels P H).op op = some model)
    (hkey : (sharingGraph P H).hash op = .inl key) {fuel : ℕ}
    (ha : FlatAsks P H ask s.engine.active) (hs : Flat P H s)
    (hneeds : ∀ y ∈ (sharingGraph P H).needs op, y ∈ (s.sharing P).memo) :
    wp flatContract (findEquivalent (shipped P H mem) ask op model key fuel n) s fun r t =>
      Searched P H s op key n r t := by
  obtain ⟨evaluate, rfl, -⟩ := shipped_arith harith hm
  induction fuel generalizing n s with
  | zero => exact wp_stop trivial
  | succ fuel ih =>
    refine wp_bind (wp_read ?_)
    cases hb : (s.bucket key)[n]? with
    | none =>
      exact wp_pure
        ⟨hs, .refl s, .last ((hs.cache.bucket_eq_none hkey).mp hb), by simp, fun _ => hb⟩
    | some e =>
      obtain ⟨entry, hentry, hg⟩ := hs.cache.candidate hkey hb
      obtain ⟨harith', v, hresults, -⟩ := hs.cache.entries entry (List.mem_of_getElem? hentry)
      refine wp_bind (wp_readEntry (fun _ => trivial) fun entry' he => ?_)
      obtain rfl := Option.some.inj (hentry.symm.trans he)
      split
      · next hop =>
        refine wp_bind (wp_unseen hs (.note rfl s) fun hflat hsharing => wp_pure ?_)
        refine ⟨hflat, .note _ s, ?_, ?_, by simp⟩
        · rw [hsharing]
          exact .own (hop ▸ hg)
        · rintro _ ⟨⟩
          exact ⟨entry, hentry, hop ▸ .refl _⟩
      · next hne =>
        obtain ⟨l, r, t, hshape⟩ := hP.arith op harith
        have hcount : entry.results.length =
            (shipped P H mem : Setup Op Blk σ APInt).program.numResults op := by
          change entry.results.length = P.numResults op
          rw [hresults, Program.numResults, hshape.results]
          rfl
        rw [if_neg (not_not.mpr hcount)]
        -- The rest of the search.
        have rest : ∀ {t : State Op Blk σ APInt} {verdict : Verdict}, Flat P H t → Keeps s t →
            (∀ {reply : Sharing.Reply} {S : Sharing.State Op},
              Sharing.Run (sharingGraph P H) s.engine.active (t.sharing P)
                (.scan op (n + 1)) reply S →
              Sharing.Run (sharingGraph P H) s.engine.active (s.sharing P) (.scan op n) reply S) →
            (∀ y ∈ (sharingGraph P H).needs op, y ∈ (t.sharing P).memo) →
            wp flatContract (record (.examined op key n verdict) id >>= fun _ =>
              findEquivalent (shipped P H mem) ask op (binaryOpEval P H op evaluate)
                key fuel (n + 1)) t
              fun r t => Searched P H s op key n r t := by
          intro t verdict ht hk hrun hmemo
          refine wp_bind (wp_unseen ht (.note rfl t) fun hflat hsharing => ?_)
          refine wp_mono (ih (n := n + 1) (hk.active ▸ ha) hflat (hsharing ▸ hmemo)) fun r u hu =>
            ?_
          refine ⟨hu.flat, hk.trans ((Keeps.note _ t).trans hu.keeps), hrun ?_, hu.found, hu.missed⟩
          have hrest := hu.run
          rw [hsharing] at hrest
          exact hk.active ▸ hrest
        refine wp_bind (wp_mono (wp_flat_isEquivalentTo hP ha hs harith hneeds) fun r t ht => ?_)
        by_cases hhead : SameHead P op entry.op
        · have hmemo : ∀ y ∈ (sharingGraph P H).needs op, y ∈ (t.sharing P).memo := fun y hy =>
            (ht.run hhead).grows.memo (hneeds y hy)
          have hrun := ht.run hhead
          rcases r with equivalent | st
          · cases equivalent with
            | false =>
              have hdiffer : ¬ SharesKey P op entry.op := fun h => by
                simpa using (ht.alike hhead false rfl).mpr h
              exact rest ht.flat ht.keeps (fun h => .differ hg hne hhead hrun hdiffer h) hmemo
            | true =>
              have hshares : SharesKey P op entry.op := (ht.alike hhead true rfl).mp rfl
              refine wp_bind (wp_unseen ht.flat (.note rfl t) fun hflat hsharing => wp_pure ?_)
              refine ⟨hflat, ht.keeps.trans (.note _ t), ?_, ?_, by simp⟩
              · rw [hsharing]
                exact .same hg hne hhead hrun hshares
              · rintro _ ⟨⟩
                -- The entry may have been filled, but it is still the one of its operation.
                obtain ⟨l, hl⟩ := hrun.grows.entries
                have hop : (t.cache.arena.map CacheEntry.op)[e]? = some entry.op := by
                  have hlt := (List.getElem?_eq_some_iff.mp hentry).1
                  have hentries : (t.sharing P).entries = t.cache.arena.map CacheEntry.op := rfl
                  rw [← hentries, ← hl,
                    List.getElem?_append_left (by simpa [State.sharing] using hlt)]
                  simp [State.sharing, hentry]
                rw [List.getElem?_map] at hop
                obtain ⟨entry', hentry', heq⟩ := Option.map_eq_some_iff.mp hop
                exact ⟨entry', hentry', heq ▸ hshares⟩
          · exact rest ht.flat ht.keeps (fun h => .skip hg hne hhead st.reply_ne_done hrun h) hmemo
        · obtain ⟨rfl, hsharing⟩ := ht.unlike hhead
          exact rest ht.flat ht.keeps (fun h => .unlike hg hne hhead (hsharing ▸ h))
            (hsharing ▸ hneeds)

/-- `op` was looked up. -/
structure LookedUp (P : Program Op Blk) (H : HashFns Op Blk) (s : State Op Blk σ APInt) (op : Op)
    (r : EvalResult CacheLookup) (t : State Op Blk σ APInt) : Prop where
  flat : Flat P H t
  keeps : Keeps s t
  signal : ∀ st, r = .signal st → Sharing.Run (sharingGraph P H) s.engine.active (s.sharing P)
    (.askAll ((sharingGraph P H).needs op)) st.reply (t.sharing P)
  completed : ∀ cached, r = .completed cached → (sharingGraph P H).hash op = .inl cached.key ∧
    (∃ S, Sharing.Run (sharingGraph P H) s.engine.active (s.sharing P)
        (.askAll ((sharingGraph P H).needs op)) .done S ∧
      Sharing.Run (sharingGraph P H) s.engine.active S (.scan op 0)
        (if cached.entry.isSome then .done else .missed) (t.sharing P)) ∧
    (∀ e, cached.entry = some e → ∃ entry, t.cache.arena[e]? = some entry ∧
      SharesKey P op entry.op) ∧
    (cached.entry = none → (t.bucket cached.key)[cached.searched]? = none)

theorem wp_flat_lookup (hP : P.Verified) (harith : P.isArith op = true)
    {model : OpModel Op Blk σ APInt} (hm : (shippedModels P H).op op = some model) {fuel : ℕ}
    (ha : FlatAsks P H ask s.engine.active) (hs : Flat P H s) :
    wp flatContract (lookup (shipped P H mem) ask fuel op model) s fun r t =>
      LookedUp P H s op r t := by
  obtain ⟨evaluate, rfl, -⟩ := shipped_arith harith hm
  obtain ⟨l, r, t, hshape⟩ := hP.arith op harith
  refine wp_bind (Prog.wp_run_bind (wp_mono (wp_flat_getKey ha hs harith hshape.operands
    (hP.valid op l (by simp [hshape.operands]))
    (hP.valid op r (by simp [hshape.operands]))) fun k t hk => ?_))
  rcases k with key | st
  · have hkey := (hk.key key rfl).hash_eq (H := H) harith
    have hneeds : ∀ y ∈ (sharingGraph P H).needs op, y ∈ (t.sharing P).memo := hk.run.replies.2 rfl
    refine Prog.wp_run_ret (wp_bind (wp_unseen hk.flat (.note rfl t) fun hflat hsharing => ?_))
    refine wp_bind (wp_mono (wp_flat_findEquivalent hP harith hm hkey (hk.keeps.active ▸ ha) hflat
      (hsharing ▸ hneeds)) fun r u hu => wp_pure ?_)
    refine ⟨hu.flat, hk.keeps.trans ((Keeps.note _ t).trans hu.keeps), by simp, ?_⟩
    rintro _ ⟨⟩
    have hscan := hu.run
    rw [hsharing] at hscan
    exact ⟨hkey, ⟨_, hk.run, hk.keeps.active ▸ hscan⟩, hu.found, hu.missed⟩
  · refine Prog.wp_run_ret (wp_pure ⟨hk.flat, hk.keeps, ?_, by simp⟩)
    rintro _ ⟨⟩
    exact hk.run

end

/-! ## Memoizing -/

theorem Program.Verified.numResults_arith (hP : P.Verified) (h : P.isArith op = true) :
    P.numResults op = 1 := by
  obtain ⟨l, r, t, hshape⟩ := hP.arith op h
  rw [Program.numResults, hshape.results]
  rfl

/-- An `arith` operation has one result. -/
theorem Program.Verified.eq_result (hP : P.Verified) {v : Value Op Blk} (hv : P.Valid v)
    (h : P.arithOp? v = some op) : v = .result op 0 := by
  obtain ⟨harith, i, rfl⟩ := Program.arithOp?_eq_some h
  have hi : i < P.numResults op := hv
  rw [hP.numResults_arith harith] at hi
  rw [Nat.lt_one_iff.mp hi]

/-- The machine's state after a value was memoized. -/
def memoizeValue (P : Program Op Blk) (v : Value Op Blk) (S : Sharing.State Op) :
    Sharing.State Op :=
  (P.arithOp? v).elim S S.memoize

variable [DecidableEq Op] [DecidableEq Blk]

theorem State.sharing_memoize (hP : P.Verified) {v : Value Op Blk} (hv : P.Valid v)
    (a : Answer APInt) :
    ((s.memoize P v a).note (.memoized v a)).sharing P = memoizeValue P v (s.sharing P) := by
  have hmemo : ∀ o, ((s.memoize P v a).note (.memoized v a)).memo (.result o 0) =
      if .result o 0 = v then some a else s.memo (.result o 0) := fun o => by
    simp only [State.memo, State.note, State.memoize, DenseMap.lookup_insert']
  rw [memoizeValue]
  cases h : P.arithOp? v with
  | none =>
    have hne : ∀ o, P.isArith o = true → .result o 0 ≠ v := by
      rintro o ho rfl
      rw [Program.arithOp?_result ho] at h
      cases h
    have hset : {o | P.isArith o = true ∧
        ∃ b, ((s.memoize P v a).note (.memoized v a)).memo (.result o 0) =
        some b} = (s.sharing P).memo := by
      ext o
      simp only [Set.mem_ofPred_eq, State.sharing]
      refine and_congr_right fun ho => ?_
      rw [hmemo, if_neg (hne o ho)]
    exact congrArg (fun m => ({ s.sharing P with memo := m } : Sharing.State Op)) hset
  | some op =>
    obtain ⟨harith, -⟩ := Program.arithOp?_eq_some h
    obtain rfl := hP.eq_result hv h
    have hset : {o | P.isArith o = true ∧ ∃ b, ((s.memoize P (.result op 0) a).note
        (.memoized (.result op 0) a)).memo (.result o 0) = some b} =
          Insert.insert op (s.sharing P).memo := by
      ext o
      simp only [Set.mem_ofPred_eq, State.sharing, Set.mem_insert_iff]
      by_cases ho : o = op
      · subst ho
        simp [hmemo, harith]
      · have hne : Value.result o 0 ≠ (.result op 0 : Value Op Blk) := fun h =>
          ho (Value.result.inj h).1
        rw [hmemo, if_neg hne]
        simp [ho]
    exact congrArg (fun m => ({ s.sharing P with memo := m } : Sharing.State Op)) hset

/-- A memoized value is memoized. -/
theorem Flat.memoizeValue_eq (hP : P.Verified) {v : Value Op Blk} (hv : P.Valid v)
    {a : Answer APInt} (h : s.memo v = some a) : memoizeValue P v (s.sharing P) = s.sharing P := by
  rw [memoizeValue]
  cases hop : P.arithOp? v with
  | none => rfl
  | some op =>
    obtain ⟨harith, -⟩ := Program.arithOp?_eq_some hop
    obtain rfl := hP.eq_result hv hop
    have hmem : op ∈ (s.sharing P).memo := ⟨harith, a, h⟩
    exact congrArg (fun m => ({ s.sharing P with memo := m } : Sharing.State Op))
      (Set.insert_eq_of_mem hmem)

variable [Fintype Op]

theorem wp_flat_memoize (hP : P.Verified) (hs : Flat P H s) {v : Value Op Blk} (hv : P.Valid v)
    {a : Answer APInt} (hcomp : a.isCompleted = true) (ha : Right s (P.denote v) a) :
    wp flatContract (memoize (shipped P H mem) v a) s fun _ t => Flat P H t ∧ Keeps s t ∧
      t.sharing P = memoizeValue P v (s.sharing P) ∧ t.cache.arena = s.cache.arena := by
  refine wp_memoize
    (fun b hb => ⟨hs, .refl s, (Flat.memoizeValue_eq hP hv hb).symm, rfl⟩) fun _ hr => ?_
  have hcache : FlatCache P H ((s.memoize P v a).note (.memoized v a)) :=
    hs.cache.of_eq rfl rfl (knownOps_unseen rfl _) (appendedOps_unseen rfl _)
  refine ⟨trivial, ⟨hr.store, hs.bindings, hs.freezes, fun w b hb => ?_, hcache⟩,
    ⟨rfl, List.Subset.refl _, rfl⟩,
    State.sharing_memoize hP hv a, rfl⟩
  simp only [State.memo, State.note, State.memoize, DenseMap.lookup_insert'] at hb
  split at hb
  · next hw =>
    obtain rfl := Option.some.inj hb
    exact ⟨hcomp, hw ▸ ha.payload hcomp⟩
  · exact hs.memo w b hb

/-! ## Keeping an answer -/

/-- What `canonical` makes of the answer `a`, when it was stored in an entry or not. -/
def IsCanonical (s : State Op Blk σ APInt) (a : Answer APInt) : Option ℕ → Answer APInt → Prop
  | none, b => b = a
  | some e, b => ∃ entry, s.cache.arena[e]? = some entry ∧ entry.results = [some b]

omit [Fintype Op] in
theorem wp_flat_canonical {a b : Answer APInt} {entry : Option ℕ} (h : IsCanonical s a entry b) :
    wp flatContract (canonical entry [a] 0) s fun b' t => b' = b ∧ t = s := by
  rw [canonical]
  cases entry with
  | none => exact wp_pure ⟨Eq.symm h, rfl⟩
  | some e =>
    obtain ⟨entry, hentry, hresults⟩ := h
    refine wp_bind (wp_readSlot (fun _ => trivial) fun entry' slot he hslot => wp_pure ?_)
    obtain rfl := Option.some.inj (hentry.symm.trans he)
    obtain rfl : some b = slot := by simpa [hresults] using hslot
    exact ⟨rfl, rfl⟩

/-- The cache after an entry was made for an operation and filled. -/
theorem FlatCache.append (hs : FlatCache P H s) (harith : P.isArith op = true)
    (hkey : (sharingGraph P H).hash op = .inl key) {v : EvalValue APInt}
    (hv : P.denote (.result op 0) = some v.payload)
    (ha : t.cache.arena = s.cache.arena ++ [⟨op, [some (.known v)]⟩])
    (he : t.cache.entries = s.cache.entries.insert key (s.bucket key ++ [s.cache.arena.length]))
    (hk : knownOps t.log = op :: knownOps s.log)
    (hl : appendedOps t.log = op :: appendedOps s.log) :
    FlatCache P H t where
  entries e hmem := by
    rw [ha, List.mem_append, List.mem_singleton] at hmem
    rcases hmem with hmem | rfl
    · exact hs.entries e hmem
    · exact ⟨harith, v, rfl, hv⟩
  buckets key' := by
    have hbucket : t.bucket key' = if key' = key then s.bucket key ++
        [s.cache.arena.length] else s.bucket key' := by
      rw [State.bucket, EvalCache.bucket, he, DenseMap.lookup_insert']
      split <;> rfl
    -- The entries that were there still are.
    have hold : (s.bucket key').map (fun e => t.cache.arena[e]?.map CacheEntry.op) =
        (s.bucket key').map (fun e => s.cache.arena[e]?.map CacheEntry.op) := by
      refine List.map_congr_left fun e hmem => ?_
      have hsome := List.mem_map_of_mem (f := fun e => s.cache.arena[e]?.map CacheEntry.op) hmem
      rw [hs.buckets key'] at hsome
      obtain ⟨g, -, hg⟩ := List.mem_map.mp hsome
      obtain ⟨entry, hentry, -⟩ := Option.map_eq_some_iff.mp hg.symm
      rw [ha, List.getElem?_append_left (List.getElem?_eq_some_iff.mp hentry).1]
    have hnew : (t.cache.arena.map CacheEntry.op).filter
        (fun g => (sharingGraph P H).hash g = .inl key') =
        (s.cache.arena.map CacheEntry.op).filter (fun g => (sharingGraph P H).hash g = .inl key') ++
          if key' = key then [op] else [] := by
      rw [ha, List.map_append, List.filter_append]
      congr 1
      rw [List.map_singleton, List.filter_singleton, hkey]
      by_cases h : key' = key
      · simp [h]
      · have h' : ¬ key = key' := fun h' => h h'.symm
        simp [h, h']
    rw [hnew, List.map_append, ← hs.buckets key', hbucket]
    split
    · next h =>
      subst h
      rw [List.map_append, hold, ha]
      simp
    · rw [hold]
      simp
  known := by rw [hk, hs.known, ha]; simp
  appended := by rw [hl, hs.appended, ha]; simp

/-- The answer of an evaluation was kept, or not. -/
structure Stores (P : Program Op Blk) (H : HashFns Op Blk) (s : State Op Blk σ APInt) (op : Op)
    (a : Answer APInt) (entry : Option ℕ) (t : State Op Blk σ APInt) : Prop where
  flat : Flat P H t
  keeps : Keeps s t
  sharing : t.sharing P = { s.sharing P with
    entries := (s.sharing P).entries ++ if (sharingGraph P H).known op then [op] else [] }
  canonical : ∃ b, IsCanonical t a entry b ∧ b.isCompleted = true ∧
    Right t (P.denote (.result op 0)) b

omit [DecidableEq Op] [Fintype Op] in
/-- The last entry is filled. -/
theorem modify_last (arena : List (CacheEntry Op APInt)) (op : Op) (v : EvalValue APInt) :
    (arena ++ [(⟨op, List.replicate 1 none⟩ : CacheEntry Op APInt)]).modify arena.length
      (fun e => { e with results := e.results.set 0 (some (.known v)) }) =
      arena ++ [⟨op, [some (.known v)]⟩] := by
  simp [List.modify_eq_take_cons_drop]

/-- What `evaluate` returned is kept. -/
theorem wp_flat_store (hs : Flat P H s) {a : Answer APInt}
    (hr : HandleGuar (s.note (.evaluated op [a])))
    (harith : P.isArith op = true) (hkey : (sharingGraph P H).hash op = .inl key)
    (hnone : (s.bucket key)[n]? = none) (hcomp : a.isCompleted = true)
    (ha : Right s (P.denote (.result op 0)) a) {fuel : ℕ} {model : OpModel Op Blk σ APInt} :
    wp flatContract (store (shipped P H mem) ask fuel op model (some ⟨key, none, n⟩) [a])
      (s.note (.evaluated op [a])) fun entry t => Stores P H s op a entry t := by
  have hpayload := ha.payload hcomp
  have hknown : (sharingGraph P H).known op = a.payload?.isSome := by
    rw [hpayload]
    rfl
  refine wp_bind (wp_read ?_)
  rcases a with (_ | v) | st
  · -- An unknown answer is not kept.
    rw [if_neg (by simp [Answer.isKnown])]
    have hun : Unseen s (s.note (.evaluated op [.unknown])) := .note rfl s
    refine wp_pure ⟨hun.flat hs hr, .note _ s, ?_, _, rfl, rfl, ha.keeps (.note _ s)⟩
    rw [hun.sharing, hknown]
    simp
  · have hfreezes : (s.note (.evaluated op [.known v])).engine.freezes = 0 := hs.freezes
    rw [if_pos ⟨hfreezes, by simp [Answer.isKnown]⟩]
    -- Nothing was appended to the bucket since the lookup.
    refine wp_bind (wp_bind
      (wp_mono (Q := fun r t => r = (none, n) ∧ t = s.note (.evaluated op [.known v])) ?_ ?_))
    · cases fuel with
      | zero => exact wp_stop trivial
      | succ fuel =>
        refine wp_bind (wp_read ?_)
        have hnone' : ((s.note (.evaluated op [.known v])).bucket key)[n]? = none := hnone
        rw [hnone']
        exact wp_pure ⟨rfl, rfl⟩
    · rintro _ _ ⟨rfl, rfl⟩
      refine wp_bind (wp_read (wp_bind (wp_record fun _ => ⟨trivial, wp_bind (wp_bind ?_)⟩)))
      let e := s.cache.arena.length
      let s₁ := ((s.note (.evaluated op [.known v])).append op key 1).note (.appended op key e)
      have harena : s₁.cache.arena = s.cache.arena ++ [⟨op, List.replicate 1 none⟩] := rfl
      have hentry : s₁.cache.arena[e]? = some ⟨op, List.replicate 1 none⟩ := by
        rw [harena]
        simp [e]
      refine wp_bind (wp_fillSlot (fun _ => trivial) (fun h => by cases h) (fun entry b he hb => ?_)
        fun entry w hw he hb => ?_)
      · obtain rfl := Option.some.inj (hentry.symm.trans he)
        simp at hb
      · obtain rfl : v = w := Option.some.inj (EvalResult.completed.inj hw)
        intro r s₂ hr₂
        refine ⟨trivial, wp_pure (wp_record fun hr₃ => ⟨trivial, wp_pure (wp_pure ?_)⟩)⟩
        obtain ⟨-, howned, hcopy⟩ := hr₂.filled e 0 v r.value rfl
        have hv : P.denote (.result op 0) = some r.value.payload := by
          rw [hcopy]
          exact hpayload.symm
        have harena' : (s₂.note (.stored e)).cache.arena = s.cache.arena ++
            [⟨op, [some (.known r.value)]⟩] :=
          modify_last _ op r.value
        have hentry' : (s₂.note (.stored e)).cache.arena[e]? =
            some ⟨op, [some (.known r.value)]⟩ := by
          rw [harena']
          simp [e]
        have hcache : FlatCache P H (s₂.note (.stored e)) :=
          hs.cache.append harith hkey hv harena' rfl rfl rfl
        have hheap : s.heap ⊆ (s₂.note (.stored e)).heap :=
          (Continues.fillSlot mem v he hb).heap.subset
        have hentries : (s₂.note (.stored e)).cache.arena.map CacheEntry.op =
            s.cache.arena.map CacheEntry.op ++
              if (sharingGraph P H).known op then [op] else [] := by
          rw [harena', hknown, List.map_append]
          rfl
        refine ⟨⟨hr₃.store, hs.bindings, hs.freezes, hs.memo, hcache⟩, ⟨rfl, hheap, rfl⟩,
          ?_, .known r.value,
          ⟨_, hentry', rfl⟩, rfl, .of_known (howned.usable.keeps (.note _ s₂)) hv⟩
        exact congrArg (fun l => ({ s.sharing P with entries := l } : Sharing.State Op)) hentries
  · cases hcomp

/-! ## Evaluating -/

/-- `op` was evaluated, if there was a step left for it. -/
structure EvaluatesOp (P : Program Op Blk) (H : HashFns Op Blk) (s : State Op Blk σ APInt) (op : Op)
    (a : Answer APInt) (t : State Op Blk σ APInt) : Prop where
  flat : Flat P H t
  keeps : Keeps s t
  right : Right t (P.denote (.result op 0)) a
  exhausted : (s.sharing P).remaining = 0 → a = .signal .exhausted ∧ t.sharing P = s.sharing P
  evaluated : (s.sharing P).remaining ≠ 0 → a.isCompleted = true ∧
    t.sharing P = (s.sharing P).evaluate (sharingGraph P H) op

theorem wp_flat_evaluateOp (hP : P.Verified) (hA : P.Acyclic) (harith : P.isArith op = true)
    {model : OpModel Op Blk σ APInt} (hm : (shippedModels P H).op op = some model)
    (hkey : (sharingGraph P H).hash op = .inl key) (ha : FlatAsks P H ask s.engine.active)
    (hs : Flat P H s) (hneeds : ∀ y ∈ (sharingGraph P H).needs op, y ∈ (s.sharing P).memo)
    (hnone : (s.bucket key)[n]? = none) {fuel : ℕ} :
    wp flatContract
      (evaluateOp (shipped P H mem) ask fuel op 0 model (some ⟨key, none, n⟩)) s fun a t =>
      EvaluatesOp P H s op a t := by
  have hv : P.Valid (.result op 0) := by
    change 0 < P.numResults op
    rw [hP.numResults_arith harith]
    exact Nat.one_pos
  refine wp_bind (wp_declareCost (fun h0 => ?_) fun h0 _ => ⟨trivial, ?_⟩)
  · exact wp_pure ⟨hs, .refl s, .of_signal _, fun _ => ⟨rfl, rfl⟩, fun hne => absurd h0 hne⟩
  refine wp_bind (wp_record fun hr => ⟨trivial, ?_⟩)
  -- A step was paid.
  let s₁ := (s.charge.note .charged).note (.evaluating op)
  have hs₁ : Flat P H s₁ :=
    ⟨hr.store, hs.bindings, hs.freezes, hs.memo, hs.cache.of_eq rfl rfl rfl rfl⟩
  have hk₁ : Keeps s s₁ := ⟨rfl, List.Subset.refl _, rfl⟩
  refine wp_bind
    (wp_mono (wp_flat_evaluate hP hA (s := s₁) ha hs₁ harith hm hneeds) fun results u hu => ?_)
  obtain ⟨a, rfl, hcomp, hright⟩ := hu.result
  refine wp_bind (wp_require (fun _ => trivial) fun _ =>
    wp_bind (wp_record fun hr' => ⟨trivial, ?_⟩))
  have hnone' : (u.bucket key)[n]? = none := by
    have hbucket := (hs.cache.bucket_eq_none hkey).mp hnone
    have hentries : (u.sharing P).entries = (s.sharing P).entries := by
      rw [hu.sharing]
      rfl
    rw [hu.flat.cache.bucket_eq_none hkey, Sharing.Graph.bucket, hentries]
    exact hbucket
  refine wp_bind
    (wp_mono (wp_flat_store hu.flat hr' harith hkey hnone' hcomp hright) fun entry v hv' => ?_)
  obtain ⟨b, hb, hcomp', hright'⟩ := hv'.canonical
  refine wp_bind (wp_bind (wp_mono (wp_flat_canonical hb) ?_))
  rintro c _ ⟨hc, rfl⟩
  rw [hc, if_pos hcomp']
  refine wp_bind (wp_mono (wp_flat_memoize hP hv'.flat hv hcomp' hright') ?_)
  rintro _ w ⟨hw, hkw, hsharing, harena⟩
  have hbw : IsCanonical w a entry b := by
    cases entry with
    | none => exact hb
    | some e =>
      obtain ⟨ent, hent, hresults⟩ := hb
      exact ⟨ent, harena ▸ hent, hresults⟩
  refine wp_pure (wp_mono (wp_flat_canonical hbw) ?_)
  rintro _ _ ⟨rfl, rfl⟩
  refine ⟨hw, hk₁.trans (hu.keeps.trans (hv'.keeps.trans hkw)),
    hright'.keeps hkw, fun h => absurd h h0,
    fun _ => ⟨hcomp', ?_⟩⟩
  rw [hsharing, memoizeValue, Program.arithOp?_result harith, hv'.sharing, hu.sharing]
  rfl

end MlirInterpreter
