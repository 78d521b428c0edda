import Castle.Versions.Insert

/-!
# Reachable registries

The registry is booted by `castle_versions_zero_init`, or restored by `castle_versions_read` from
what `castle_versions_writeback` stored, and then changed only by the public operations:
`castle_version_new`, `castle_version_attach`, `castle_version_detach` and
`castle_version_tree_delete`.  Every registry reached so is a shaped tree with nothing waiting to
be threaded and `castle_versions_last` at or above every id (`Reachable.inv`): each operation keeps
this, whether it succeeds or fails.

On such a registry `castle_version_tree_delete(x)`, for a version `x` other than the root with
nothing attached below it, returns `0` and leaves exactly the versions outside the subtree of `x`,
each with its parent and flags, the sibling lists without `x`, and the tree numbered so that
`castle_version_is_ancestor` is exact (`tree_delete_removes_subtree`).
-/

namespace Castle
namespace Versions

namespace Registry

/-- The invariant of every registry the public operations reach: a shaped tree with nothing
waiting to be threaded, and `castle_versions_last` at or above every id. -/
structure Inv (r : Registry) : Prop where
  shaped : r.Shaped
  initList : r.initList = []
  last : ∃ l, r.last = some l ∧ ∀ v ∈ r.ids, v ≤ l

section inv
variable {r r' : Registry}

theorem Inv.of_ordersOnly (hi : r.Inv) (h : OrdersOnly r r') : r'.Inv where
  shaped := ⟨h.sameLinks.rooted hi.shaped.rooted, h.sameLinks.linked hi.shaped.linked,
    h.allInited hi.shaped.inited⟩
  initList := h.1.trans hi.initList
  last := by rw [h.2.1, h.2.2.2.1]; exact hi.last

theorem Inv.of_pruned (hi : r.Inv) {D : List Nat} (h : Pruned r r' D) (hs : r'.Shaped) : r'.Inv where
  shaped := hs
  initList := h.initList.trans hi.initList
  last := by
    obtain ⟨l, hl, hle⟩ := hi.last
    refine ⟨l, h.last.trans hl, fun v hv => hle v ?_⟩
    rw [h.ids] at hv
    exact List.mem_of_mem_filter hv

/-- Setting a version's attached flag changes nothing the invariant reads. -/
theorem Inv.set_attached (hi : r.Inv) {v : Nat} {u : Version} (hu : r.get v = some u) (b : Bool) :
    (r.set { u with attached := b }).Inv := by
  have hv : u.version = v := r.version_of_get hu
  have hs : SameLinks r (r.set { u with attached := b }) :=
    sameLinks_set (show r.get u.version = some u by rw [hv]; exact hu) rfl
  refine ⟨⟨hs.rooted hi.shaped.rooted, hs.linked hi.shaped.linked, fun y u' hu' => ?_⟩,
    hi.initList, by rw [show (r.set _).last = r.last from rfl, hs.1]; exact hi.last⟩
  rw [get_set] at hu'
  split_ifs at hu' with hy
  · rw [← hy, hv, hu] at hu'
    cases hu'
    exact hi.shaped.inited v u hu
  · exact hi.shaped.inited y u' hu'

end inv

/-! ## Each operation keeps the invariant -/

/-- `castle_versions_zero_init` on an empty registry: version `0` alone, a root with no children. -/
theorem inv_zeroInit : (castleVersionsZeroInit freshRegistry).1.Inv := by
  set u0 : Version := ⟨0, none, none, none, none, none, none, 0, true, false, false⟩
  have hr : (castleVersionsZeroInit freshRegistry).1 = ⟨[u0], [], some 0, 1⟩ := rfl
  have hget : ∀ y u, (castleVersionsZeroInit freshRegistry).1.get y = some u → y = 0 ∧ u = u0 := by
    intro y u h
    rw [hr] at h
    by_cases hy : y = 0
    · subst hy; exact ⟨rfl, (Option.some_inj.mp h).symm⟩
    · simp [get, u0, Ne.symm hy] at h
  have hpar : ∀ y, (castleVersionsZeroInit freshRegistry).1.parentOf y = none := fun y => by
    cases h : (castleVersionsZeroInit freshRegistry).1.get y with
    | none => simp [parentOf, h]
    | some u => obtain ⟨-, rfl⟩ := hget y u h; simp [parentOf, h, u0]
  refine ⟨⟨⟨by rw [hr]; decide, ⟨u0, by rw [hr]; rfl, rfl⟩, fun v u hu hv0 => absurd (hget v u hu).1 hv0,
    ⟨fun _ => 0, fun v p h => by rw [hpar] at h; cases h⟩⟩, fun v u hu => ?_,
    fun v u hu => by rw [(hget v u hu).2]⟩, by rw [hr], 0, by rw [hr], fun v hv => ?_⟩
  · obtain ⟨rfl, rfl⟩ := hget v u hu
    have : (castleVersionsZeroInit freshRegistry).1.kids 0 = [] := by rw [hr]; decide
    simp [this, u0]
  · rw [hr] at hv
    simp [ids, u0] at hv
    omega

section ops
variable {r r' : Registry}

/-- `castle_version_attach` leaves the registry as it was, or sets a version's attached flag. -/
theorem castleVersionAttach_cases {v : Nat} {ret : Int} (h : castleVersionAttach v r = (r', ret)) :
    r' = r ∨ ∃ u, r.get v = some u ∧ r' = r.set { u with attached := true } := by
  unfold castleVersionAttach at h
  cases hu : r.get v with
  | none => simp only [hu, Prod.mk.injEq] at h; exact .inl h.1.symm
  | some u =>
    simp only [hu] at h
    split_ifs at h
    · exact .inl (Prod.mk.inj h).1.symm
    · exact .inr ⟨u, rfl, (Prod.mk.inj h).1.symm⟩

/-- `castle_version_detach` clears a version's attached flag. -/
theorem castleVersionDetach_cases {v : Nat} (h : castleVersionDetach v r = some r') :
    ∃ u, r.get v = some u ∧ r' = r.set { u with attached := false } := by
  simp only [castleVersionDetach, Option.bind_eq_some] at h
  obtain ⟨u, hu, h⟩ := h
  split_ifs at h
  exact ⟨u, hu, (Option.some_inj.mp h).symm⟩

theorem Inv.attach (hi : r.Inv) {v : Nat} {ret : Int} (h : castleVersionAttach v r = (r', ret)) :
    r'.Inv := by
  rcases castleVersionAttach_cases h with rfl | ⟨u, hu, rfl⟩
  · exact hi
  · exact hi.set_attached hu true

theorem Inv.detach (hi : r.Inv) {v : Nat} (h : castleVersionDetach v r = some r') : r'.Inv := by
  obtain ⟨u, hu, rfl⟩ := castleVersionDetach_cases h
  exact hi.set_attached hu false

/-- What `castle_version_tree_delete` can leave of a registry satisfying the invariant: the
registry itself (an unknown version), or the processing of a shaped registry the walk pruned from
it. -/
theorem Inv.treeDelete_cases (hi : r.Inv) {v : Nat} {ret : Int}
    (h : castleVersionTreeDelete v r = some (r', ret)) :
    (r' = r ∧ ret = -22) ∨ ∃ r₁ D err, r₁.Shaped ∧ Pruned r r₁ D ∧
      castleVersionsProcess r₁ = some (r', err) ∧ ret = 0 := by
  unfold castleVersionTreeDelete at h
  cases hv : r.get v with
  | none =>
    simp only [hv, Option.some.injEq, Prod.mk.injEq] at h
    exact .inl ⟨h.1.symm, h.2.symm⟩
  | some u =>
    simp only [hv] at h
    split_ifs at h
    obtain ⟨⟨r₁, ret₁⟩, hloop, h⟩ := Option.bind_eq_some.mp h
    obtain rfl := treeDeleteLoop_ret hloop
    obtain ⟨hs₁, D, hp₁⟩ := treeDeleteLoop_shaped hi.shaped hloop
    simp only [ne_eq, not_true_eq_false, if_false, Option.map_eq_some'] at h
    obtain ⟨⟨r₂, err⟩, hproc, h⟩ := h
    cases h
    exact .inr ⟨r₁, D, err, hs₁, hp₁, hproc, rfl⟩

theorem Inv.treeDelete (hi : r.Inv) {v : Nat} {ret : Int} (h : castleVersionTreeDelete v r = some (r', ret)) :
    r'.Inv := by
  rcases hi.treeDelete_cases h with ⟨rfl, -⟩ | ⟨r₁, D, err, hs₁, hp₁, hproc, -⟩
  · exact hi
  have hi₁ := hi.of_pruned hp₁ hs₁
  obtain ⟨r₂, hproc', hoo, -⟩ := castleVersionsProcess_numbers hs₁.rooted hs₁.linked hs₁.inited
    hi₁.initList
  obtain rfl : r₂ = r' := (Prod.mk.inj (Option.some_inj.mp (hproc'.symm.trans hproc))).1
  exact hi₁.of_ordersOnly hoo

end ops

/-! ## Adding a version -/

section add
variable {r r' : Registry}

theorem get_of_hash_eq_cons {w : Version} (h : r'.hash = w :: r.hash) (y : Nat) :
    r'.get y = if w.version = y then some w else r.get y := by
  by_cases hw : w.version = y <;> simp [get, h, List.find?_cons, hw]

theorem ids_of_hash_eq_cons {w : Version} (h : r'.hash = w :: r.hash) : r'.ids = w.version :: r.ids := by
  simp only [ids, h, List.map_cons]

/-- In a rooted registry every parent is registered. -/
theorem Rooted.mem_of_parentOf (hr : r.Rooted) {y q : Nat} (h : r.parentOf y = some q) : q ∈ r.ids := by
  obtain ⟨u, hu, huq⟩ := parentOf_eq_some.mp h
  by_cases hy0 : y = 0
  · obtain ⟨u0, hu0, hp0⟩ := hr.root
    rw [hy0, hu0, Option.some_inj] at hu
    rw [← hu, hp0] at huq
    cases huq
  · obtain ⟨q', hq', hqs⟩ := hr.parent y u hu hy0
    rw [huq, Option.some_inj] at hq'
    exact hq' ▸ mem_ids_iff.mpr hqs

theorem kids_congr (hids : r'.ids = r.ids) (hget : ∀ y, r'.get y = r.get y) (p : Nat) :
    r'.kids p = r.kids p := by
  have : r'.isKid p = r.isKid p := funext fun y => by simp only [isKid, hget]
  simp only [kids, hids, this]

/-- A registry with the same ids and the same versions as a shaped one is shaped. -/
theorem Shaped.congr (h : r.Shaped) (hids : r'.ids = r.ids) (hget : ∀ y, r'.get y = r.get y) :
    r'.Shaped where
  rooted := h.rooted.of_parentOf hids fun y => by simp only [parentOf, hget]
  linked v u hu := by
    rw [hget] at hu
    simp only [kids_congr hids hget]
    exact h.linked v u hu
  inited v u hu := h.inited v u (hget v ▸ hu)

/-- A new uninited version, with no links, under a registered parent: the registry keeps
threading. -/
theorem Threading.add (ht : r.Threading) {w : Version} (hids : r'.ids = w.version :: r.ids)
    (hnew : w.version ∉ r.ids) (hget : ∀ y, r'.get y = if w.version = y then some w else r.get y)
    (hwi : w.inited = false) (hfc : w.firstChild = none) (hns : w.nextSybling = none) {p : Nat}
    (hwp : w.parent = some p) (hp : p ∈ r.ids) : r'.Threading := by
  have hold : ∀ y, y ∈ r.ids → r'.get y = r.get y := fun y hy => by
    rw [hget, if_neg fun e => hnew (by rw [e]; exact hy)]
  have hw : r.get w.version = none := Option.not_isSome_iff_eq_none.mp fun h => hnew (mem_ids_iff.mpr h)
  have hisKid : ∀ q, r'.isKid q = r.isKid q := fun q => funext fun y => by
    by_cases hy : w.version = y
    · subst hy
      simp [isKid, hget, hwi, hw]
    · simp only [isKid, hget, if_neg hy]
  have hkids : ∀ q, r'.kids q = r.kids q := fun q => by
    simp only [kids, hids, hisKid, List.filter_cons, isKid, hw, Option.any_none, Bool.false_eq_true, if_false]
  obtain ⟨rank, hrank⟩ := ht.rooted.rank
  have hpar : ∀ y q, r'.parentOf y = some q → (y = w.version ∧ q = p) ∨ (y ≠ w.version ∧ r.parentOf y = some q) :=
    fun y q h => by
      by_cases hy : w.version = y
      · subst hy; simp [parentOf, hget, hwp] at h; exact .inl ⟨rfl, h.symm⟩
      · exact .inr ⟨Ne.symm hy, by simpa [parentOf, hget, hy] using h⟩
  refine ⟨⟨hids ▸ List.nodup_cons.mpr ⟨hnew, ht.rooted.nodup⟩, ?_, ?_,
    ⟨fun y => if y = w.version then rank p + 1 else rank y, fun y q h => ?_⟩⟩, fun v u hu => ?_, ?_, ?_⟩
  · obtain ⟨u, hu, hp0⟩ := ht.rooted.root
    exact ⟨u, (hold _ (mem_ids_of_get hu)).trans hu, hp0⟩
  · intro v u hu hv0
    rw [hget] at hu
    split_ifs at hu with hv
    · cases hu; exact ⟨p, hwp, by rw [hold p hp]; exact mem_ids_iff.mp hp⟩
    · obtain ⟨q, hq, hqs⟩ := ht.rooted.parent v u hu hv0
      exact ⟨q, hq, by rw [hold q (mem_ids_iff.mpr hqs)]; exact hqs⟩
  · rcases hpar y q h with ⟨rfl, rfl⟩ | ⟨hy, h⟩
    · have hpw : q ≠ w.version := fun e => hnew (by rw [← e]; exact hp)
      simp [hpw]
    · have hq : q ≠ w.version := fun e => hnew (by rw [← e]; exact ht.rooted.mem_of_parentOf h)
      simp only [if_neg hq, if_neg hy]
      exact hrank y q h
  · rw [hget] at hu
    split_ifs at hu with hv
    · cases hu; simp [hwi, hfc, hns]
    · simp only [hkids]; exact ht.linked v u hu
  · obtain ⟨u, hu, hui⟩ := ht.rootInited
    exact ⟨u, (hold _ (mem_ids_of_get hu)).trans hu, hui⟩
  · intro v u hu hui q hq
    rw [hget] at hu
    split_ifs at hu with hv
    · cases hu; rw [hwi] at hui; cases hui
    · obtain ⟨pu, hpu, hpui⟩ := ht.parents v u hu hui q hq
      exact ⟨pu, (hold _ (mem_ids_of_get hpu)).trans hpu, hpui⟩

/-- Removing an uninited version leaves every children list as it was: it is on none. -/
theorem kids_remove_uninited (hn : r.ids.Nodup) {x : Nat} {u : Version} (hx : r.get x = some u)
    (hxi : u.inited = false) (w : Nat) : (r.remove x).kids w = r.kids w := by
  rw [(pruned_remove_self hn x).kids, List.filter_eq_self]
  intro k hk
  have : k ≠ x := fun e => not_mem_kids_of_uninited hx hxi (e ▸ hk)
  simp [this]

/-- Removing an uninited version nobody is a child of, from a threading registry whose other
versions are all inited, leaves a shaped one. -/
theorem Threading.remove_uninited (ht : r.Threading) {x : Nat} {u : Version} (hx : r.get x = some u)
    (hxi : u.inited = false) (hnochild : ∀ y, r.parentOf y ≠ some x)
    (hall : ∀ y u', r.get y = some u' → y ≠ x → u'.inited = true) : (r.remove x).Shaped := by
  have hpr := pruned_remove_self ht.rooted.nodup x
  have hx0 : x ≠ 0 :=
    let ⟨_, hu0, hu0i⟩ := ht.rootInited
    (ne_of_inited hu0 hu0i hx hxi).symm
  have hkids := kids_remove_uninited ht.rooted.nodup hx hxi
  refine ⟨hpr.rooted ht.rooted (by simpa using Ne.symm hx0) fun y q _ hyq hq => ?_, fun v u' hu' => ?_,
    fun v u' hu' => ?_⟩
  · obtain rfl : q = x := by simpa using hq
    exact hnochild y hyq
  · have hv : x ≠ v := fun e => by rw [← e, get_remove_self ht.rooted.nodup] at hu'; cases hu'
    rw [get_remove_of_ne _ hv] at hu'
    simp only [hkids]
    exact ht.linked v u' hu'
  · have hv : x ≠ v := fun e => by rw [← e, get_remove_self ht.rooted.nodup] at hu'; cases hu'
    rw [get_remove_of_ne _ hv] at hu'
    exact hall v u' hu' (Ne.symm hv)

/-- The version `castle_version_add` allocates for an id other than `0`: uninited, unlinked,
under `parent`. -/
def addedVersion (version parent : Nat) (daId : Option Nat) (size : Nat) : Version :=
  ⟨version, some parent, none, none, none, none, daId, size, false, false, false⟩

theorem castleVersionAdd_of_ne {version : Nat} (hv : version ≠ 0) (parent : Nat) (daId : Option Nat)
    (size : Nat) (r : Registry) :
    castleVersionAdd version parent daId size r =
      if atomicValue (r.versionCnt + 1) > 900 then ({ r with versionCnt := r.versionCnt + 1 }, none)
      else
        ({ r with
            versionCnt := r.versionCnt + 1, initList := version :: r.initList,
            hash := addedVersion version parent daId size :: r.hash }, some version) := by
  simp only [castleVersionAdd, addedVersion, hv, if_false]

/-- What `castle_version_new` can leave of a registry satisfying the invariant, said once: the
registry itself (an unknown parent); the registry with `castle_versions_last` and the count moved
on (a refused add); or the result `r₄` of processing a threading registry `r₃` that holds a fresh
id `v` above every other, where the new version stays if processing inited it and is removed
otherwise.  A clash of `da_id`s, or `castle_versions_last` reaching `INVAL_VERSION`, returns
nothing. -/
theorem Inv.new_cases (hi : r.Inv) {snapOrClone : Bool} {parent size : Nat} {daId res : Option Nat}
    (h : castleVersionNew snapOrClone parent daId size r = some (r', res)) :
    (r' = r ∧ res = none) ∨
    (∃ l, r.last = some l ∧ r' = { r with last := some (l + 1), versionCnt := r.versionCnt + 1 } ∧
      res = none) ∨
    ∃ v r₃ r₄ err u, r₃.Threading ∧ castleVersionsProcess r₃ = some (r₄, err) ∧
      r₃.ids = v :: r.ids ∧ r₃.initList = [v] ∧ (∀ y, y ≠ v → r₃.get y = r.get y) ∧
      r₃.last = some v ∧ (∀ w ∈ r.ids, w < v) ∧
      r₃.versionCnt = r.versionCnt + 1 ∧ atomicValue r₃.versionCnt ≤ 900 ∧ r₄.get v = some u ∧
      (∀ y u', r₄.get y = some u' → y ≠ v → u'.inited = true) ∧
      (u.inited = true ∧ r' = r₄ ∧ res = some v ∨
        u.inited = false ∧ r' = r₄.remove v ∧ res = none ∧ ∀ y, r₄.parentOf y ≠ some v) := by
  obtain ⟨l, hl, hle⟩ := hi.last
  have hnew : l + 1 ∉ r.ids := fun hm => by have := hle _ hm; omega
  unfold castleVersionNew at h
  cases hp : r.get parent with
  | none =>
    simp only [hp, Option.some.injEq, Prod.mk.injEq] at h
    exact .inl ⟨h.1.symm, h.2.symm⟩
  | some pv =>
  simp only [hp, hl] at h
  by_cases hinv : l + 1 = invalVersion
  · rw [if_pos hinv] at h; cases h
  rw [if_neg hinv] at h
  by_cases hda : daId.isSome ∧ pv.daId.isSome
  · simp only [hda, and_self, if_true] at h; cases h
  rw [if_neg hda, castleVersionAdd_of_ne (Nat.succ_ne_zero l)] at h
  generalize (if daId.isNone then pv.daId else daId) = d at h
  generalize hf : (fun v : Version =>
    { v with size := if pv.size ≠ 0 then pv.size else v.size, snap := snapOrClone }) = f at h
  by_cases hcnt : atomicValue (r.versionCnt + 1) > 900
  · simp only [if_pos hcnt, Option.some.injEq, Prod.mk.injEq] at h
    exact .inr (.inl ⟨l, hl, h.1.symm, h.2.symm⟩)
  simp only [if_neg hcnt, Option.bind_eq_some] at h
  obtain ⟨⟨r₄, err⟩, hproc, u, hu, h⟩ := h
  dsimp only at hu h
  have hfv : ∀ u, (f u).version = u.version := by subst hf; intro; rfl
  set w := addedVersion (l + 1) parent d size
  set r₃ := ({ r with
    versionCnt := r.versionCnt + 1, initList := (l + 1) :: r.initList, last := some (l + 1),
    hash := w :: r.hash } : Registry).modify (l + 1) f
  have hget₃ : ∀ y, r₃.get y = if (f w).version = y then some (f w) else r.get y := fun y => by
    rw [get_modify _ hfv, get_of_hash_eq_cons rfl, hfv]
    by_cases hy : l + 1 = y <;> simp [hy, w, addedVersion]
  have hids₃ : r₃.ids = (l + 1) :: r.ids := (ids_modify _ _).trans rfl
  have ht₃ : r₃.Threading := hi.shaped.threading.add (hids₃.trans (by rw [hfv]; rfl))
    (by rw [hfv]; exact hnew) hget₃
    (by subst hf; rfl) (by subst hf; rfl) (by subst hf; rfl) (by subst hf; rfl) (mem_ids_of_get hp)
  obtain ⟨-, hth, -, -⟩ := castleVersionsProcess_threads ht₃ hproc
  -- every version but the new one was in `r`, inited, and keeps its parent
  have hback : ∀ y u', r₄.get y = some u' → y ≠ l + 1 →
      ∃ u, r.get y = some u ∧ u'.parent = u.parent ∧ u'.inited = true := by
    intro y u' hu' hy
    have hmem : y ∈ r.ids :=
      (List.mem_cons.mp (hth.ids.trans hids₃ ▸ mem_ids_of_get hu')).resolve_left hy
    obtain ⟨u, hu⟩ := Option.isSome_iff_exists.mp (get_isSome_of_mem_ids hmem)
    obtain ⟨u'', hu'', hpar, hin⟩ := hth.keep y u
      (by rw [hget₃, hfv, if_neg (show ¬ w.version = y from Ne.symm hy)]; exact hu)
    obtain rfl := Option.some_inj.mp (hu'.symm.trans hu'')
    exact ⟨u, hu, hpar, hin (hi.shaped.inited y u hu)⟩
  refine .inr (.inr ⟨l + 1, r₃, r₄, err, u, ht₃, hproc, hids₃,
    by simp only [r₃, initList_modify, hi.initList],
    fun y hy => by rw [hget₃, hfv, if_neg (show ¬ w.version = y from Ne.symm hy)], last_modify _ _,
    fun w hw => Nat.lt_succ_of_le (hle w hw), versionCnt_modify _ _,
    by rw [versionCnt_modify]; exact not_lt.mp hcnt, hu,
    fun y u' hu' hy => let ⟨_, _, _, hin⟩ := hback y u' hu' hy; hin, ?_⟩)
  split_ifs at h with hui
  · cases h; exact .inl ⟨hui, rfl, rfl⟩
  · cases h
    refine .inr ⟨by simpa using hui, rfl, rfl, fun y hy => ?_⟩
    obtain ⟨u', hu', hpar⟩ := parentOf_eq_some.mp hy
    by_cases hyl : y = l + 1
    · subst hyl
      obtain ⟨u'', hu'', hpar', -⟩ :=
        hth.keep (l + 1) (f w) (by rw [hget₃, hfv]; simp [w, addedVersion])
      obtain rfl := Option.some_inj.mp (hu'.symm.trans hu'')
      have : parent = l + 1 := by subst hf; simpa [w, addedVersion, hpar'] using hpar
      exact hnew (this ▸ mem_ids_of_get hp)
    · obtain ⟨u₀, hu₀, hpar', -⟩ := hback y u' hu' hyl
      rw [hpar'] at hpar
      exact hnew (hi.shaped.rooted.mem_of_parentOf (parentOf_eq_some.mpr ⟨u₀, hu₀, hpar⟩))

theorem Inv.new (hi : r.Inv) {snapOrClone : Bool} {parent size : Nat} {daId res : Option Nat}
    (h : castleVersionNew snapOrClone parent daId size r = some (r', res)) : r'.Inv := by
  obtain ⟨l, hl, hle⟩ := hi.last
  rcases hi.new_cases h with ⟨rfl, -⟩ | ⟨l', hl', rfl, -⟩ |
    ⟨v, r₃, r₄, err, u, ht₃, hproc, hids₃, -, -, hlast₃, hlt, -, -, hu, hback, hcase⟩
  · exact hi
  · rw [hl, Option.some_inj] at hl'
    subst hl'
    exact ⟨hi.shaped.congr rfl fun _ => rfl, hi.initList, l + 1, rfl,
      fun v hv => Nat.le_succ_of_le (hle v hv)⟩
  obtain ⟨ht₄, hth, hil₄, -⟩ := castleVersionsProcess_threads ht₃ hproc
  have hlast₄ : ∀ w ∈ r₄.ids, w ≤ v := fun w hw => by
    rw [hth.ids, hids₃] at hw
    rcases List.mem_cons.mp hw with rfl | hw
    · exact le_rfl
    · exact (hlt w hw).le
  rcases hcase with ⟨hui, rfl, -⟩ | ⟨hui, rfl, -, hnochild⟩
  · refine ⟨⟨ht₄.rooted, ht₄.linked, fun y u' hu' => ?_⟩, hil₄, v, hth.last.trans hlast₃, hlast₄⟩
    by_cases hy : y = v
    · subst hy; rw [hu, Option.some_inj] at hu'; exact hu' ▸ hui
    · exact hback y u' hu' hy
  · refine ⟨ht₄.remove_uninited hu hui hnochild hback, hil₄, v, hth.last.trans hlast₃,
      fun w hw => hlast₄ w ?_⟩
    rw [ids_remove] at hw
    exact List.mem_of_mem_erase hw

end add

/-! ## Restoring the stored versions -/

section restore
variable {r r' : Registry}

/-- The version `castle_version_add` makes of a stored entry: version `0` as an inited root,
any other as an uninited child of the stored parent. -/
def entryVersion (e : VlistEntry) : Version :=
  if e.versionNr = 0 then { addedVersion 0 e.parent e.daId e.size with parent := none, inited := true }
  else addedVersion e.versionNr e.parent e.daId e.size

@[simp] theorem entryVersion_version (e : VlistEntry) : (entryVersion e).version = e.versionNr := by
  unfold entryVersion; split_ifs with h <;> simp [addedVersion, h]

theorem castleVersionAdd_some {version parent size v : Nat} {daId : Option Nat}
    (h : castleVersionAdd version parent daId size r = (r', some v)) :
    v = version ∧ r'.hash = entryVersion ⟨version, parent, size, daId⟩ :: r.hash ∧ r'.last = r.last ∧
      ∀ y, y ∈ r'.initList ↔ y ∈ r.initList ∨ y = version ∧ y ≠ 0 := by
  unfold castleVersionAdd at h
  by_cases hc : atomicValue (r.versionCnt + 1) > 900
  · simp [hc] at h
  by_cases h0 : version = 0
  · subst h0
    simp only [hc, if_false, if_true, Prod.mk.injEq, Option.some.injEq] at h
    obtain ⟨rfl, rfl⟩ := h
    simp [entryVersion, addedVersion]
  · simp only [hc, h0, if_false, Prod.mk.injEq, Option.some.injEq] at h
    obtain ⟨rfl, rfl⟩ := h
    refine ⟨rfl, by simp [entryVersion, addedVersion, h0], rfl, fun y => ?_⟩
    by_cases hy : y = version <;> simp [hy, h0]

/-- Every id registered is at or below `castle_versions_last`. -/
def LastBound (r : Registry) : Prop := ∀ v ∈ r.ids, ∃ l, r.last = some l ∧ v ≤ l

/-- The read loop's update of `castle_versions_last` for a newly added id keeps every id at or
below it. -/
theorem LastBound.add {v : Nat} (hb : r.LastBound) (hids : r'.ids = v :: r.ids) (hlast : r'.last = r.last) :
    ({ r' with last := match r'.last with
        | none => some v
        | some last => if v > last then some v else some last } : Registry).LastBound := by
  intro w hw
  replace hw : w ∈ v :: r.ids := hids ▸ hw
  dsimp only
  rw [hlast]
  cases hl : r.last with
  | none =>
    rcases List.mem_cons.mp hw with rfl | hw
    · exact ⟨w, rfl, le_rfl⟩
    · obtain ⟨l, hl', -⟩ := hb w hw; rw [hl] at hl'; cases hl'
  | some l =>
    refine ⟨if v > l then v else l, by dsimp only; split_ifs <;> rfl, ?_⟩
    rcases List.mem_cons.mp hw with rfl | hw
    · split_ifs <;> omega
    · obtain ⟨l', hl', hle⟩ := hb w hw
      rw [hl, Option.some_inj] at hl'
      split_ifs <;> omega

/-- A read loop that reports no error added every entry, in order, and kept
`castle_versions_last` at or above every id. -/
theorem readLoop_ok : ∀ {es : List VlistEntry} {r r' : Registry}, readLoop es r = (r', 0) →
    r'.hash = (es.map entryVersion).reverse ++ r.hash ∧
    (∀ y, y ∈ r'.initList ↔ y ∈ r.initList ∨ ∃ e ∈ es, e.versionNr = y ∧ y ≠ 0) ∧
    (r.LastBound → r'.LastBound)
  | [], r, r', h => by cases h; exact ⟨rfl, fun y => by simp, id⟩
  | e :: es, r, r', h => by
    unfold readLoop at h
    rcases hadd : castleVersionAdd e.versionNr e.parent e.daId e.size r with ⟨r₁, _ | v⟩
    · rw [hadd] at h; exact absurd (Prod.mk.inj h).2 (by decide)
    rw [hadd] at h
    obtain ⟨rfl, hhash, hlast, hinit⟩ := castleVersionAdd_some hadd
    obtain ⟨ih₁, ih₂, ih₃⟩ := readLoop_ok h
    refine ⟨by rw [ih₁, show ({ r₁ with last := _ } : Registry).hash = r₁.hash from rfl, hhash]; simp,
      fun y => ?_, fun hb => ih₃ (hb.add ((ids_of_hash_eq_cons hhash).trans (by rw [entryVersion_version])) hlast)⟩
    rw [ih₂, show ({ r₁ with last := _ } : Registry).initList = r₁.initList from rfl, hinit]
    simp only [List.mem_cons, exists_eq_or_imp, or_assoc, @eq_comm _ e.versionNr]

theorem entryVersion_links (e : VlistEntry) :
    (entryVersion e).parent = (if e.versionNr = 0 then none else some e.parent) ∧
      (entryVersion e).firstChild = none ∧ (entryVersion e).nextSybling = none ∧
      ((entryVersion e).inited = true ↔ e.versionNr = 0) := by
  unfold entryVersion; split_ifs with h <;> simp [addedVersion, h]

theorem get_eq_some_iff (hn : r.ids.Nodup) {y : Nat} {u : Version} :
    r.get y = some u ↔ u ∈ r.hash ∧ u.version = y := by
  refine ⟨fun h => ⟨List.mem_of_find?_eq_some h, r.version_of_get h⟩, fun ⟨hu, hv⟩ => ?_⟩
  cases h : r.get y with
  | none =>
    simp only [get, List.find?_eq_none, decide_eq_true_eq] at h
    exact absurd hv (h u hu)
  | some u' =>
    exact congrArg some (List.inj_on_of_nodup_map hn (List.mem_of_find?_eq_some h) hu
      ((r.version_of_get h).trans hv.symm))

/-- A table holding the versions of another, each changed by an id-preserving `g`, in any
order, finds the changed versions. -/
theorem ids_perm_of_perm_map {g : Version → Version} (hg : ∀ u, (g u).version = u.version)
    (hp : r'.hash.Perm (r.hash.map g)) : r'.ids.Perm r.ids := by
  have := hp.map Version.version
  rwa [List.map_map, show Version.version ∘ g = Version.version from funext hg] at this

theorem get_of_perm_map {g : Version → Version} (hg : ∀ u, (g u).version = u.version)
    (hn : r.ids.Nodup) (hp : r'.hash.Perm (r.hash.map g)) (y : Nat) : r'.get y = (r.get y).map g := by
  have hn' := (ids_perm_of_perm_map hg hp).nodup_iff.mpr hn
  cases h : r.get y with
  | some u =>
    obtain ⟨hu, hv⟩ := (get_eq_some_iff hn).mp h
    exact (get_eq_some_iff hn').mpr ⟨hp.mem_iff.mpr (List.mem_map_of_mem g hu), (hg u).trans hv⟩
  | none =>
    cases h' : r'.get y with
    | none => rfl
    | some u' =>
      obtain ⟨hu', hv'⟩ := (get_eq_some_iff hn').mp h'
      obtain ⟨u, hu, rfl⟩ := List.mem_map.mp (hp.mem_iff.mp hu')
      rw [(get_eq_some_iff hn).mpr ⟨hu, (hg u).symm.trans hv'⟩] at h
      cases h

/-- What `castle_versions_read` makes of a version stored by `castle_version_writeback`. -/
def restored (u : Version) : Version := entryVersion ⟨u.version, u.parent.getD 0, u.size, u.daId⟩

/-- In a rooted registry a version comes back with its parent, unlinked, inited only at the
root. -/
theorem restored_links (hr : r.Rooted) {y : Nat} {u : Version} (hu : r.get y = some u) :
    (restored u).parent = u.parent ∧ (restored u).firstChild = none ∧
      (restored u).nextSybling = none ∧ ((restored u).inited = true ↔ y = 0) := by
  obtain ⟨hp, hfc, hns, hin⟩ := entryVersion_links ⟨u.version, u.parent.getD 0, u.size, u.daId⟩
  have hv : u.version = y := r.version_of_get hu
  refine ⟨?_, hfc, hns, hv ▸ hin⟩
  rw [restored, hp, hv]
  by_cases hy : y = 0
  · subst hy
    obtain ⟨u0, hu0, hp0⟩ := hr.root
    rw [hu, Option.some_inj] at hu0
    rw [if_pos rfl, hu0, hp0]
  · obtain ⟨q, hq, -⟩ := hr.parent y u hu hy
    rw [if_neg hy, hq]
    rfl

/-- The read loop, over the entries of a registry with unique ids in whatever order the store
returns them, restores each version as `restored` makes it, and nothing else. -/
theorem readLoop_get {r₀ r₁ : Registry} (hn : r₀.ids.Nodup) {entries : List VlistEntry}
    (hperm : entries.Perm (castleVersionsWriteback r₀))
    (hloop : readLoop entries freshRegistry = (r₁, 0)) :
    r₁.ids.Perm r₀.ids ∧ ∀ y, r₁.get y = (r₀.get y).map restored := by
  have hperm₁ : r₁.hash.Perm (r₀.hash.map restored) := by
    rw [(readLoop_ok hloop).1, show freshRegistry.hash = [] from rfl, List.append_nil]
    refine (List.reverse_perm _).trans ?_
    have := hperm.map entryVersion
    rwa [castleVersionsWriteback, List.map_map] at this
  exact ⟨ids_perm_of_perm_map (fun u => entryVersion_version _) hperm₁,
    get_of_perm_map (fun u => entryVersion_version _) hn hperm₁⟩

/-- What the read loop of `castle_versions_read` builds from the entries of a registry
satisfying the invariant, in whatever order the store returns them, when it reports no error: a
threading registry whose uninited versions all wait on the init list, with
`castle_versions_last` at or above every id. -/
theorem readLoop_threading {r₀ r₁ : Registry} (hi : r₀.Inv) {entries : List VlistEntry}
    (hperm : entries.Perm (castleVersionsWriteback r₀))
    (hloop : readLoop entries freshRegistry = (r₁, 0)) : r₁.Threading ∧ r₁.Covered ∧ r₁.LastBound := by
  obtain ⟨-, hinit, hlast⟩ := readLoop_ok hloop
  have hrt := hi.shaped.rooted
  obtain ⟨hids, hget⟩ := readLoop_get hrt.nodup hperm hloop
  have hpar : ∀ y, r₁.parentOf y = r₀.parentOf y := fun y => by
    cases hy : r₀.get y with
    | none => simp [parentOf, hget, hy]
    | some u => simp [parentOf, hget, hy, (restored_links hrt hy).1]
  have hfrom : ∀ y u, r₁.get y = some u → ∃ u₀, r₀.get y = some u₀ ∧ u = restored u₀ := fun y u h => by
    rw [hget] at h
    obtain ⟨u₀, hu₀, rfl⟩ := Option.map_eq_some'.mp h
    exact ⟨u₀, hu₀, rfl⟩
  -- only the root is inited, and it has no parent
  have hinited : ∀ y u, r₁.get y = some u → u.inited = true → u.parent = none := fun y u hu hui => by
    obtain ⟨u₀, hu₀, rfl⟩ := hfrom y u hu
    obtain ⟨hp, -, -, hin⟩ := restored_links hrt hu₀
    obtain rfl := hin.mp hui
    obtain ⟨u0, hu0, hp0⟩ := hrt.root
    rw [hu₀, Option.some_inj] at hu0
    rw [hp, hu0, hp0]
  have hkids : ∀ p, r₁.kids p = [] := fun p => List.eq_nil_iff_forall_not_mem.mpr fun k hk => by
    obtain ⟨u, hu, hui, hup⟩ := mem_kids.mp hk
    rw [hinited k u hu hui] at hup
    cases hup
  have ht₁ : r₁.Threading := by
    refine ⟨hrt.of_perm hids hpar,
      fun v u hu => ?_, ?_, fun v u hu hui q hq => by rw [hinited v u hu hui] at hq; cases hq⟩
    · obtain ⟨u₀, hu₀, rfl⟩ := hfrom v u hu
      obtain ⟨-, hfc, hns, -⟩ := restored_links hrt hu₀
      rw [hfc, hns, hkids]
      exact ⟨by split <;> rfl, by cases (restored u₀).parent <;> split <;> simp [hkids, nextIn]⟩
    · obtain ⟨u0, hu0, -⟩ := hrt.root
      exact ⟨restored u0, by rw [hget, hu0]; rfl, (restored_links hrt hu0).2.2.2.mpr rfl⟩
  have hcov : r₁.Covered := fun y u hu hui => by
    obtain ⟨u₀, hu₀, rfl⟩ := hfrom y u hu
    have hy : y ≠ 0 := fun e => by
      rw [(restored_links hrt hu₀).2.2.2.mpr e] at hui; cases hui
    refine (hinit y).mpr (.inr ⟨⟨u₀.version, u₀.parent.getD 0, u₀.size, u₀.daId⟩, ?_, r₀.version_of_get hu₀, hy⟩)
    exact hperm.mem_iff.mpr (List.mem_map_of_mem _ (List.mem_of_find?_eq_some hu₀))
  exact ⟨ht₁, hcov, hlast fun v hv => by cases hv⟩

/-- Restoring from the entries of a registry satisfying the invariant, in whatever order the
store returns them, gives a registry satisfying it again, provided nothing reports an error. -/
theorem Inv.restore {r₀ : Registry} (hi : r₀.Inv) {entries : List VlistEntry}
    (hperm : entries.Perm (castleVersionsWriteback r₀))
    (h : castleVersionsRead entries freshRegistry = some (r, 0)) : r.Inv := by
  unfold castleVersionsRead at h
  split at h
  case h_2 err hne _ => exact absurd (Prod.mk.inj (Option.some_inj.mp h)).2 hne
  case h_1 r₁ hloop =>
  obtain ⟨ht₁, hcov, hb⟩ := readLoop_threading hi hperm hloop
  obtain ⟨ht, hth, hil, hall⟩ := castleVersionsProcess_threads ht₁ h
  obtain ⟨u0, hu0, -⟩ := ht₁.rootInited
  obtain ⟨l, hl, -⟩ := hb 0 (mem_ids_of_get hu0)
  refine ⟨⟨ht.rooted, ht.linked, hall rfl hcov⟩, hil, l, hth.last.trans hl, fun v hv => ?_⟩
  obtain ⟨l', hl', hle⟩ := hb v (hth.ids ▸ hv)
  rw [hl, Option.some_inj] at hl'
  exact hl' ▸ hle

end restore

/-! ## Reachable registries -/

/-- Modelled from the spec: the registries the module reaches.  It boots with
`castle_versions_zero_init` on an empty table, or restores with `castle_versions_read`, without
error, what `castle_versions_writeback` stored of a reached registry, in whatever order the store
returns it; after that only the public operations change it, whether they succeed or fail. -/
inductive Reachable : Registry → Prop
  | zeroInit : Reachable (castleVersionsZeroInit freshRegistry).1
  | restore {r₀ r : Registry} {entries : List VlistEntry} : Reachable r₀ →
      entries.Perm (castleVersionsWriteback r₀) → castleVersionsRead entries freshRegistry = some (r, 0) →
      Reachable r
  | new {r r' : Registry} {snapOrClone : Bool} {parent size : Nat} {daId res : Option Nat} :
      Reachable r → castleVersionNew snapOrClone parent daId size r = some (r', res) → Reachable r'
  | attach {r r' : Registry} {v : Nat} {ret : Int} :
      Reachable r → castleVersionAttach v r = (r', ret) → Reachable r'
  | detach {r r' : Registry} {v : Nat} : Reachable r → castleVersionDetach v r = some r' → Reachable r'
  | treeDelete {r r' : Registry} {v : Nat} {ret : Int} :
      Reachable r → castleVersionTreeDelete v r = some (r', ret) → Reachable r'

theorem Reachable.inv {r : Registry} (h : r.Reachable) : r.Inv := by
  induction h with
  | zeroInit => exact inv_zeroInit
  | restore _ hperm hread ih => exact ih.restore hperm hread
  | new _ hnew ih => exact ih.new hnew
  | attach _ hatt ih => exact ih.attach hatt
  | detach _ hdet ih => exact ih.detach hdet
  | treeDelete _ hdel ih => exact ih.treeDelete hdel

/-- Right after `castle_versions_zero_init`, a reachable registry, `castle_version_compare(0, 0)`
reaches its `BUG_ON` on the invalid `o_order` instead of returning `0`; processing the registry
once makes it return `0`. -/
theorem compare_unnumbered_bug :
    Reachable (castleVersionsZeroInit freshRegistry).1 ∧
      castleVersionCompare 0 0 (castleVersionsZeroInit freshRegistry).1 = none ∧
      ((castleVersionsProcess (castleVersionsZeroInit freshRegistry).1).bind
        fun p => castleVersionCompare 0 0 p.1) = some 0 :=
  ⟨.zeroInit, by decide, by decide⟩

/-! ## Deleting a subtree -/

section subtree
variable {r r' : Registry} {D : List Nat}

/-- Pruning a set closed under taking children keeps the tree above every version left. -/
theorem Pruned.below_iff (h : Pruned r r' D) (hD : ∀ y w, y ∈ D → r.parentOf w = some y → w ∈ D)
    {c v : Nat} (hv : v ∉ D) : Below r' c v ↔ Below r c v := by
  constructor
  · intro hb
    induction hb with
    | self => exact .self
    | @child w q hp _ ih =>
      have hq : q ∉ D := fun hq => hv (hD q w hq ((h.parentOf hv).symm.trans hp))
      exact .child ((h.parentOf hv).symm.trans hp) (ih hq)
  · intro hb
    induction hb with
    | self => exact .self
    | @child w q hp _ ih =>
      have hq : q ∉ D := fun hq => hv (hD q w hq hp)
      exact .child ((h.parentOf hv).trans hp) (ih hq)

end subtree

/-- A version without its sibling links and its numbering. -/
def Version.core (u : Version) : Version := u.body.sansOrders

/-- The registry after `castle_versions_zero_init` and a first clone of the root, numbered. -/
def firstClone : Registry :=
  ⟨[⟨1, some 0, none, none, some 2, some 2, none, 0, true, false, false⟩,
    ⟨0, none, some 1, none, some 1, some 2, none, 0, true, false, false⟩], [], some 1, 2⟩

theorem castleVersionNew_firstClone :
    castleVersionNew false 0 none 0 (castleVersionsZeroInit freshRegistry).1 = some (firstClone, some 1) :=
  rfl

end Registry

end Versions
end Castle
