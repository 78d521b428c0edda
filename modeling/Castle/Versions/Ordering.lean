import Castle.Versions.Reachable

/-!
# The numbering every reachable registry carries

`castle_version_is_ancestor` and `castle_version_compare` read nothing but the `o_order` and
`r_order` fields, and only `castle_versions_process` writes them.  This module shows that the
public operations keep those fields the depth-first numbering of the tree, so that both queries
are exact on every registry the module reaches, except the one `castle_versions_zero_init`
boots before anything has been processed.

* `Numbered` — along the preorder of the tree (children in their sibling-list order, which holds
  every version) the versions carry the `o_order`s `1, 2, ...`, and each version's interval
  `[o_order, r_order]` holds exactly the `o_order`s of the versions below it.  `Unnumbered` — the
  boot registry: version `0` alone, with `o_order` `INVAL_VERSION`.
* `dfsLoop_threading`, `castleVersionsProcess_numbered` — processing a registry whose uninited
  versions wait on the init list numbers the inited ones in depth-first order.
* `castleVersionNew_cases` — what `castle_version_new` does on a reachable registry, once.
* `Reachable.numbering` — every reachable registry is `Unnumbered` or `Numbered`;
  `Reachable.count_le` — it holds no more versions than `castle_version_add` has been called,
  and at most `900` as long as the `atomic_t` counter has not wrapped.
* **`reachable_is_ancestor_exact`**, **`reachable_compare_preorder`** — the two queries on every
  reachable registry but the boot one.
-/

namespace Castle
namespace Versions

theorem Reach.snoc {ch : Nat → List Nat} {x p c : Nat} (h : Reach ch x p) (hc : c ∈ ch p) :
    Reach ch x c := by
  induction h with
  | self => exact .step hc (.self c)
  | step hx _ ih => exact .step hx (ih hc)

namespace Registry

/-- The numbering `castle_versions_process` leaves: along the preorder of the tree `F` levels
deep, which holds every version, the versions carry the `o_order`s `1, 2, ...`, and the interval
`[o_order, r_order]` of each holds exactly the `o_order`s of the versions below it. -/
def Numbered (r : Registry) : Prop :=
  ∃ F, (r.preorder F 0).Perm r.ids ∧ OrderedFrom r (r.preorder F 0) 0 ∧
    NumberedFrom r r (r.preorder F 0) 0

/-- The registry `castle_versions_zero_init` boots: version `0` alone, its `o_order`
`INVAL_VERSION`. -/
def Unnumbered (r : Registry) : Prop :=
  r.ids = [0] ∧ ∀ u, r.get 0 = some u → u.oOrder = none

/-- What `castle_versions_process` leaves: along the preorder of the tree `F` levels deep, which
holds exactly the inited versions, the versions carry the `o_order`s `1, 2, ...`, with the
intervals of `Numbered`. -/
def Processed (r : Registry) : Prop :=
  ∃ F, OrderedFrom r (r.preorder F 0) 0 ∧ NumberedFrom r r (r.preorder F 0) 0 ∧
    ∀ v, v ∈ r.preorder F 0 ↔ ∃ u, r.get v = some u ∧ u.inited = true

/-! ## What processing leaves -/

section process
variable {r r' : Registry}

/-- Preorders read nothing but the children lists. -/
theorem preorder_congr_kids (h : ∀ p, r'.kids p = r.kids p) : ∀ f v, r'.preorder f v = r.preorder f v
  | 0, _ => rfl
  | f + 1, v => by rw [Registry.preorder, Registry.preorder, h, funext (preorder_congr_kids h f)]

theorem NumberedFrom.congr_below {r₀ r₁ : Registry} {L : List Nat} {id : Nat}
    (h : NumberedFrom r₀ r L id) (hb : ∀ w ∈ L, ∀ u ∈ L, Below r₁ w u ↔ Below r₀ w u) :
    NumberedFrom r₁ r L id := fun w hw =>
  let ⟨o, x, hwo, h1, h2, h3, hint⟩ := h w hw
  ⟨o, x, hwo, h1, h2, h3, fun u hu o' x' hu' => (hint u hu o' x' hu').trans (hb w hw u hu).symm⟩

theorem NumberedFrom.perm {r₀ : Registry} {L L' : List Nat} {id : Nat} (h : NumberedFrom r₀ r L id)
    (hp : L.Perm L') : NumberedFrom r₀ r L' id := fun w hw =>
  let ⟨o, x, hwo, h1, h2, h3, hint⟩ := h w (hp.mem_iff.mpr hw)
  ⟨o, x, hwo, h1, h2, hp.length_eq ▸ h3, fun u hu => hint u (hp.mem_iff.mpr hu)⟩

theorem SameLinks.inited_iff (h : SameLinks r r') {v : Nat} :
    (∃ u, r'.get v = some u ∧ u.inited = true) ↔ ∃ u, r.get v = some u ∧ u.inited = true :=
  ⟨fun ⟨_, hu', hi⟩ => let ⟨u, hu, _, _, _, he⟩ := h.get hu'; ⟨u, hu, he ▸ hi⟩,
    fun ⟨_, hu, hi⟩ => let ⟨u', hu', _, _, _, he⟩ := h.symm.get hu; ⟨u', hu', he ▸ hi⟩⟩
/-- In a threading registry every inited version is reached from the root along the children
lists: its parent is inited, and so on up to `0`. -/
theorem Threading.reach_kids (ht : r.Threading) {v : Nat} {u : Version} (hv : r.get v = some u)
    (hvi : u.inited = true) : Reach r.kids 0 v := by
  obtain ⟨rank, hrank⟩ := ht.rooted.rank
  suffices ∀ n v u, rank v < n → r.get v = some u → u.inited = true → Reach r.kids 0 v from
    this _ v u (Nat.lt_succ_self _) hv hvi
  intro n
  induction n with
  | zero => intro _ _ h; omega
  | succ n ih =>
    intro v u hrv hv hvi
    by_cases hv0 : v = 0
    · subst hv0; exact .self 0
    obtain ⟨p, hp, -⟩ := ht.rooted.parent v u hv hv0
    obtain ⟨pu, hpu, hpui⟩ := ht.parents v u hv hvi p hp
    have hlt := hrank v p (parentOf_eq_some.mpr ⟨u, hv, hp⟩)
    exact (ih p pu (by omega) hpu hpui).snoc (mem_kids.mpr ⟨u, hv, hvi, hp⟩)

/-- The walk of `castle_versions_process` on a threading registry: it runs to its end and
numbers, along the preorder, exactly the inited versions. -/
theorem dfsLoop_threading (ht : r.Threading) :
    ∃ r' F, dfsLoop (2 * r.hash.length + 1) (some 0) true 0 r = some r' ∧ OrdersOnly r r' ∧
      NumberedFrom r r' (r.preorder F 0) 0 ∧ OrderedFrom r' (r.preorder F 0) 0 ∧
      ∀ v, v ∈ r.preorder F 0 ↔ ∃ u, r.get v = some u ∧ u.inited = true := by
  obtain ⟨rank, hrank⟩ := ht.rooted.rank
  obtain ⟨F, hF⟩ := exists_rank_bound r.ids rank
  obtain ⟨u0, h0, hu0i⟩ := ht.rootInited
  obtain ⟨u0', h0', hp0⟩ := ht.rooted.root
  obtain rfl := Option.some_inj.mp (h0.symm.trans h0')
  have hn0 : u0.nextSybling = none := by
    have := (ht.linked 0 u0 h0).2
    rwa [if_pos hu0i, hp0] at this
  have hth := ht.linked.threadedBy ht.rooted.nodup h0 hu0i
  obtain ⟨r', hrun, hoo, hnum, hord⟩ := dfsLoop_from_root hrank hth h0 ⟨hp0, hn0⟩ F fun w hw => by
    have := hF w (mem_ids_of_below (mem_ids_of_get h0) hw)
    omega
  rw [← Registry.preorder_eq_preorderBy] at hnum hord
  refine ⟨r', F, hrun, hoo, hnum, hord, fun v => ⟨fun hv => ?_, fun ⟨u, hu, hui⟩ => ?_⟩⟩
  · rw [Registry.preorder_eq_preorderBy] at hv
    rcases (reach_of_mem_preorderBy hv).cases_bottom with rfl | ⟨q, -, hvq⟩
    · exact ⟨u0, h0, hu0i⟩
    · obtain ⟨u, hu, hui, -⟩ := mem_kids.mp hvq
      exact ⟨u, hu, hui⟩
  · rw [Registry.preorder_eq_preorderBy]
    exact hth.mem_preorderBy hrank (ht.reach_kids hu hui)
      (by have := hF v (mem_ids_of_get hu); omega)

/-- `castle_versions_process` on a threading registry numbers its inited versions along the
preorder of the tree it leaves. -/
theorem castleVersionsProcess_numbered {err : Int} (ht : r.Threading)
    (h : castleVersionsProcess r = some (r', err)) : r'.Processed := by
  simp only [castleVersionsProcess, Option.bind_eq_bind, Option.bind_eq_some] at h
  obtain ⟨⟨r₁, err₁⟩, hloop, h⟩ := h
  obtain ⟨ht₁, -⟩ := processInitLoop_threads hloop ht
  obtain ⟨root, -, h⟩ := h
  split_ifs at h
  · simp at h
  simp only [pure, Option.some_bind, Option.bind_eq_some, Option.some.injEq, Prod.mk.injEq] at h
  obtain ⟨r₂, hdfs, rfl, rfl⟩ := h
  obtain ⟨r₃, F, hrun, hoo, hnum, hord, hmem⟩ := dfsLoop_threading ht₁
  obtain rfl : r₃ = r₂ := Option.some.inj (hrun.symm.trans hdfs)
  have hs := hoo.sameLinks
  rw [← hs.preorder] at hnum hord hmem
  exact ⟨F, hord, hnum.congr_below fun _ _ _ _ => hs.below, fun v => (hmem v).trans hs.inited_iff.symm⟩

/-- A processed registry whose versions are all inited is `Numbered`. -/
theorem Inv.numbered (hi : r.Inv) (hp : r.Processed) : r.Numbered := by
  obtain ⟨F, hord, hnum, hmem⟩ := hp
  obtain ⟨rank, hrank⟩ := hi.shaped.rooted.rank
  have hn := hi.shaped.rooted.nodup
  refine ⟨F, (List.perm_ext_iff_of_nodup (nodup_preorder hrank hn F 0) hn).mpr
    fun v => (hmem v).trans ⟨fun ⟨_, hu, _⟩ => mem_ids_of_get hu, fun h => ?_⟩, hord, hnum⟩
  obtain ⟨u, hu⟩ := Option.isSome_iff_exists.mp (get_isSome_of_mem_ids h)
  exact ⟨u, hu, hi.shaped.inited v u hu⟩

/-- Removing a version processing left uninited, the parent of none, keeps what processing left:
the children lists, and so the preorder, do not change, nor do the orders along it. -/
theorem Processed.remove_uninited (hp : r.Processed) (hn : r.ids.Nodup) {x : Nat} {u : Version}
    (hx : r.get x = some u) (hxi : u.inited = false) (hnochild : ∀ y, r.parentOf y ≠ some x) :
    (r.remove x).Processed := by
  obtain ⟨F, hord, hnum, hmem⟩ := hp
  have hpre := preorder_congr_kids (kids_remove_uninited hn hx hxi) F 0
  have hne : ∀ w ∈ r.preorder F 0, x ≠ w := fun w hw e => by
    obtain ⟨u', hu', hui'⟩ := (hmem w).mp hw
    rw [← e, hx, Option.some_inj] at hu'
    rw [← hu', hxi] at hui'
    cases hui'
  have hord' : ∀ w ∈ r.preorder F 0, (r.remove x).orders w = r.orders w := fun w hw => by
    simp only [orders, get_remove_of_ne _ (hne w hw)]
  have hpr := pruned_remove_self hn x
  have hclosed : ∀ y w, y ∈ [x] → r.parentOf w = some y → w ∈ [x] := fun y w hy hw => by
    obtain rfl := List.mem_singleton.mp hy
    exact absurd hw (hnochild w)
  refine ⟨F, hpre ▸ hord.congr hord', hpre ▸ (hnum.congr hord').congr_below fun w _ v hv =>
    hpr.below_iff hclosed (by simpa using (hne v hv).symm), fun v => ?_⟩
  rw [hpre, hmem]
  by_cases hv : x = v
  · subst hv
    rw [get_remove_self hn]
    refine ⟨fun ⟨u', hu', hui'⟩ => ?_, fun ⟨_, h, _⟩ => by cases h⟩
    rw [hx, Option.some_inj] at hu'
    rw [← hu', hxi] at hui'
    cases hui'
  · rw [get_remove_of_ne _ hv]

end process

/-! ## Each operation keeps the numbering -/

section ops
variable {r r' : Registry}

/-- A change that keeps every link and every order keeps the numbering. -/
theorem Numbered.congr (h : r.Numbered) (hs : SameLinks r r') (ho : ∀ w, r'.orders w = r.orders w) :
    r'.Numbered := by
  obtain ⟨F, hp, hord, hnum⟩ := h
  refine ⟨F, ?_, ?_, ?_⟩ <;> rw [hs.preorder]
  · exact hs.1 ▸ hp
  · exact hord.congr fun w _ => ho w
  · exact (hnum.congr fun w _ => ho w).congr_below fun _ _ _ _ => hs.below

/-- A change that keeps the table keeps the numbering, and the boot registry's lack of one. -/
theorem numbering_of_hash (h : r.Unnumbered ∨ r.Numbered) (hh : r'.hash = r.hash) :
    r'.Unnumbered ∨ r'.Numbered := by
  have hget : r'.get = r.get := funext fun y => by simp only [get, hh]
  have hids : r'.ids = r.ids := by simp only [ids, hh]
  rcases h with ⟨hid, h0⟩ | h
  · exact .inl ⟨hids.trans hid, hget ▸ h0⟩
  · exact .inr (h.congr ⟨hids, fun v => by rw [hget]⟩ fun w => by simp only [orders, hget])

/-- Setting a version's attached flag: every version reads as before but for that flag. -/
theorem get_set_attached {v : Nat} {u : Version} (hu : r.get v = some u) (b : Bool) (y : Nat) :
    (r.set { u with attached := b }).get y =
      (r.get y).map fun w => if y = v then { w with attached := b } else w := by
  have hv : u.version = v := r.version_of_get hu
  rw [get_set]
  split_ifs with h₁ h₂ h₂
  · subst hv h₁; simp [hu]
  · exact absurd (hv ▸ h₁).symm h₂
  · exact absurd (hv.trans h₂.symm) h₁
  · simp

/-- Setting a version's attached flag keeps the numbering, and the boot registry's lack of one. -/
theorem numbering_set_attached (h : r.Unnumbered ∨ r.Numbered) {v : Nat} {u : Version}
    (hu : r.get v = some u) (b : Bool) :
    (r.set { u with attached := b }).Unnumbered ∨ (r.set { u with attached := b }).Numbered := by
  have hget := get_set_attached hu b
  have hs : SameLinks r (r.set { u with attached := b }) :=
    sameLinks_set (show r.get u.version = some u by rw [r.version_of_get hu]; exact hu) rfl
  rcases h with ⟨hid, h0⟩ | h
  · refine .inl ⟨hs.1.trans hid, fun u' hu' => ?_⟩
    rw [hget] at hu'
    obtain ⟨w, hw, rfl⟩ := Option.map_eq_some'.mp hu'
    split_ifs <;> exact h0 w hw
  · refine .inr (h.congr hs fun w => ?_)
    rw [orders, orders, hget]
    cases r.get w <;> simp only [Option.map_none', Option.map_some', Option.none_bind,
      Option.some_bind]
    split_ifs <;> rfl

theorem Inv.new_numbering (hi : r.Inv) (hn : r.Unnumbered ∨ r.Numbered) {snapOrClone : Bool}
    {parent size : Nat} {daId res : Option Nat}
    (h : castleVersionNew snapOrClone parent daId size r = some (r', res)) :
    r'.Unnumbered ∨ r'.Numbered := by
  rcases hi.new_cases h with ⟨rfl, -⟩ | ⟨l, -, rfl, -⟩ |
    ⟨v, r₃, r₄, err, u, ht₃, hproc, -, -, -, -, -, -, -, hu, -, hcase⟩
  · exact hn
  · exact numbering_of_hash hn rfl
  refine .inr ((hi.new h).numbered ?_)
  have hp₄ := castleVersionsProcess_numbered ht₃ hproc
  rcases hcase with ⟨-, rfl, -⟩ | ⟨hui, rfl, -, hnochild⟩
  · exact hp₄
  · exact hp₄.remove_uninited (castleVersionsProcess_threads ht₃ hproc).1.rooted.nodup hu hui hnochild

theorem Inv.treeDelete_numbering (hi : r.Inv) (hn : r.Unnumbered ∨ r.Numbered) {v : Nat} {ret : Int}
    (h : castleVersionTreeDelete v r = some (r', ret)) : r'.Unnumbered ∨ r'.Numbered := by
  rcases hi.treeDelete_cases h with ⟨rfl, -⟩ | ⟨r₁, D, err, hs₁, -, hproc, -⟩
  · exact hn
  · exact .inr ((hi.treeDelete h).numbered (castleVersionsProcess_numbered hs₁.threading hproc))

theorem Inv.restore_processed {r₀ : Registry} (hi : r₀.Inv) {entries : List VlistEntry}
    (hperm : entries.Perm (castleVersionsWriteback r₀))
    (h : castleVersionsRead entries freshRegistry = some (r, 0)) : r.Processed := by
  unfold castleVersionsRead at h
  split at h
  case h_2 err hne _ => exact absurd (Prod.mk.inj (Option.some_inj.mp h)).2 hne
  case h_1 r₁ hloop => exact castleVersionsProcess_numbered (readLoop_threading hi hperm hloop).1 h

end ops

/-- Every registry the module reaches carries the depth-first numbering of its tree, except the
one `castle_versions_zero_init` boots, which carries none until something is processed. -/
theorem Reachable.numbering {r : Registry} (h : r.Reachable) : r.Unnumbered ∨ r.Numbered := by
  induction h with
  | zeroInit => exact .inl ⟨rfl, fun u hu => by obtain rfl := Option.some.inj hu; rfl⟩
  | restore hr₀ hperm hread _ =>
    exact .inr ((hr₀.inv.restore hperm hread).numbered (hr₀.inv.restore_processed hperm hread))
  | new hr hnew ih => exact hr.inv.new_numbering ih hnew
  | attach _ hatt ih =>
    rcases castleVersionAttach_cases hatt with rfl | ⟨u, hu, rfl⟩
    · exact ih
    · exact numbering_set_attached ih hu true
  | detach _ hdet ih =>
    obtain ⟨u, hu, rfl⟩ := castleVersionDetach_cases hdet
    exact numbering_set_attached ih hu false
  | treeDelete hr hdel ih => exact hr.inv.treeDelete_numbering ih hdel

/-! ## At most `900` versions, until the counter wraps -/

section count
variable {r r' : Registry}

/-- An add that succeeds has counted one more call, and the counter did not read past `900`. -/
theorem castleVersionAdd_count {version parent size v : Nat} {daId : Option Nat}
    (h : castleVersionAdd version parent daId size r = (r', some v)) :
    r'.versionCnt = r.versionCnt + 1 ∧ atomicValue (r.versionCnt + 1) ≤ 900 := by
  unfold castleVersionAdd at h
  by_cases hc : atomicValue (r.versionCnt + 1) > 900
  · simp [hc] at h
  simp only [hc, if_false] at h
  split_ifs at h <;> (obtain ⟨rfl, -⟩ := Prod.mk.inj h) <;> exact ⟨rfl, not_lt.mp hc⟩

/-- A read loop that reports no error has counted every entry, and from a count of at most `900`
not past `900`. -/
theorem readLoop_count : ∀ {es : List VlistEntry} {r r' : Registry}, readLoop es r = (r', 0) →
    r'.versionCnt = r.versionCnt + es.length ∧ (r.versionCnt ≤ 900 → r'.versionCnt ≤ 900)
  | [], r, r', h => by cases h; exact ⟨rfl, id⟩
  | e :: es, r, r', h => by
    unfold readLoop at h
    rcases hadd : castleVersionAdd e.versionNr e.parent e.daId e.size r with ⟨r₁, _ | v⟩
    · rw [hadd] at h; exact absurd (Prod.mk.inj h).2 (by decide)
    rw [hadd] at h
    obtain ⟨hc, hle⟩ := castleVersionAdd_count hadd
    obtain ⟨ih₁, ih₂⟩ := readLoop_count h
    refine ⟨by rw [ih₁, List.length_cons]; dsimp only; omega, fun h900 => ih₂ ?_⟩
    rw [atomicValue_of_lt (by omega)] at hle
    dsimp only
    omega

end count

/-- Every registry the module reaches holds no more versions than `castle_version_add` has been
called, since nothing else makes a version; and while the counter has not wrapped, at most
`900`, since an add past `900` fails. -/
theorem Reachable.count_le {r : Registry} (h : r.Reachable) :
    r.ids.length ≤ r.versionCnt ∧ (r.versionCnt < 2 ^ 31 → r.ids.length ≤ 900) := by
  induction h with
  | zeroInit => decide
  | @restore r₀ r entries hr₀ hperm hread _ =>
    unfold castleVersionsRead at hread
    split at hread
    case h_2 err hne _ => exact absurd (Prod.mk.inj (Option.some_inj.mp hread)).2 hne
    case h_1 r₁ hloop =>
    obtain ⟨-, hth, -⟩ := castleVersionsProcess_threads (readLoop_threading hr₀.inv hperm hloop).1 hread
    obtain ⟨hc, hle⟩ := readLoop_count hloop
    have hlen : r₁.ids.length = entries.length := by
      simp [ids, (readLoop_ok hloop).1, freshRegistry]
    rw [hth.ids, hth.versionCnt, hlen, hc]
    have h900 := hle (Nat.zero_le _)
    rw [hc] at h900
    simp only [freshRegistry, Nat.zero_add] at h900 ⊢
    exact ⟨le_rfl, fun _ => h900⟩
  | @new r r' _ _ _ _ _ hr hnew ih =>
    rcases hr.inv.new_cases hnew with ⟨rfl, -⟩ | ⟨l, -, rfl, -⟩ |
      ⟨v, r₃, r₄, err, u, ht₃, hproc, hids₃, -, -, -, -, hc₃, hle₃, -, -, hcase⟩
    · exact ih
    · exact ⟨ih.1.trans (Nat.le_succ _), fun h => ih.2 (by dsimp only at h; omega)⟩
    obtain ⟨-, hth, -⟩ := castleVersionsProcess_threads ht₃ hproc
    have h₄ : r₄.ids.length = r.ids.length + 1 ∧ r₄.versionCnt = r.versionCnt + 1 := by
      rw [hth.ids, hids₃, hth.versionCnt, hc₃]; exact ⟨rfl, rfl⟩
    have h' : r'.ids.length ≤ r₄.ids.length ∧ r'.versionCnt = r₄.versionCnt := by
      rcases hcase with ⟨-, rfl, -⟩ | ⟨-, rfl, -⟩
      · exact ⟨le_rfl, rfl⟩
      · exact ⟨by rw [ids_remove]; exact List.length_erase_le .., rfl⟩
    refine ⟨by omega, fun hw => ?_⟩
    -- below `2 ^ 31` calls the add that made the new version counted at most `900`
    rw [hc₃, atomicValue_of_lt (by omega)] at hle₃
    omega
  | attach _ hatt ih =>
    rcases castleVersionAttach_cases hatt with rfl | ⟨u, -, rfl⟩
    · exact ih
    · rw [ids_set]; exact ih
  | detach _ hdet ih =>
    obtain ⟨u, -, rfl⟩ := castleVersionDetach_cases hdet
    rw [ids_set]; exact ih
  | @treeDelete r r' _ _ hr hdel ih =>
    rcases hr.inv.treeDelete_cases hdel with ⟨rfl, -⟩ | ⟨r₁, D, err, hs₁, hp₁, hproc, -⟩
    · exact ih
    obtain ⟨-, hth, -⟩ := castleVersionsProcess_threads hs₁.threading hproc
    rw [hth.ids, hth.versionCnt, hp₁.ids, hp₁.versionCnt]
    have := List.length_filter_le (fun y => decide (y ∉ D)) r.ids
    omega

/-- Every registry the module reaches in fewer than `2 ^ 31` calls of `castle_version_add`
holds at most `900` versions. -/
theorem Reachable.versions_le_900 {r : Registry} (h : r.Reachable) (hcnt : r.versionCnt < 2 ^ 31) :
    r.ids.length ≤ 900 :=
  h.count_le.2 hcnt

theorem firstClone_versions_le_900 : firstClone.versionCnt < 2 ^ 31 ∧ firstClone.ids.length ≤ 900 :=
  ⟨by decide, Reachable.versions_le_900 (.new .zeroInit castleVersionNew_firstClone) (by decide)⟩

/-! ## The two queries on reachable registries -/

/-- On every registry the module reaches but the boot one, `castle_version_is_ancestor(c, v)`
answers, for any two registered versions, exactly whether `v` lies in the subtree of `c`; on the
boot registry, version `0` alone, it stops at a `BUG_ON`. -/
theorem reachable_is_ancestor_exact {r : Registry} (hr : r.Reachable) :
    (r.ids = [0] ∧ castleVersionIsAncestor 0 0 r = none) ∨
      ∀ c ∈ r.ids, ∀ v ∈ r.ids,
        ∃ b, castleVersionIsAncestor c v r = some b ∧ (b = true ↔ Below r c v) := by
  rcases hr.numbering with ⟨hid, h0⟩ | ⟨F, hp, -, hnum⟩
  · refine .inl ⟨hid, ?_⟩
    obtain ⟨u, hu⟩ := Option.isSome_iff_exists.mp (get_isSome_of_mem_ids (hid ▸ List.mem_singleton_self 0))
    simp [castleVersionIsAncestor, hu, h0 u hu]
  · exact .inr fun c hc v hv =>
      castleVersionIsAncestor_numbered (.refl r) hr.inv.shaped.inited (hnum.perm hp) hc hv

theorem reachable_is_ancestor_exact_firstClone :
    (firstClone.ids = [0] ∧ castleVersionIsAncestor 0 0 firstClone = none) ∨
      ∀ c ∈ firstClone.ids, ∀ v ∈ firstClone.ids,
        ∃ b, castleVersionIsAncestor c v firstClone = some b ∧ (b = true ↔ Below firstClone c v) :=
  reachable_is_ancestor_exact (.new .zeroInit castleVersionNew_firstClone)

/-- On every registry the module reaches but the boot one, the versions listed in the preorder of
the tree, children in their sibling-list order, are all the versions, and, while there are fewer
than `2 ^ 31` of them, `castle_version_compare` of the `i`-th and the `j`-th is `i - j`, with no
wrap of the 32-bit difference; on the boot registry `castle_version_compare(0, 0)` stops at a
`BUG_ON`. -/
theorem reachable_compare_preorder {r : Registry} (hr : r.Reachable) (hcap : r.ids.length < 2 ^ 31) :
    (r.ids = [0] ∧ castleVersionCompare 0 0 r = none) ∨
      ∃ F, (r.preorder F 0).Perm r.ids ∧ ∀ i j (hi : i < (r.preorder F 0).length)
        (hj : j < (r.preorder F 0).length),
        castleVersionCompare (r.preorder F 0)[i] (r.preorder F 0)[j] r = some ((i : Int) - j) := by
  rcases hr.numbering with ⟨hid, h0⟩ | ⟨F, hp, hord, -⟩
  · refine .inl ⟨hid, ?_⟩
    obtain ⟨u, hu⟩ := Option.isSome_iff_exists.mp (get_isSome_of_mem_ids (hid ▸ List.mem_singleton_self 0))
    simp [castleVersionCompare, hu, h0 u hu]
  · have hlen : (r.preorder F 0).length < 2 ^ 31 := hp.length_eq ▸ hcap
    exact .inr ⟨F, hp, fun i j hi hj =>
      castleVersionCompare_ordered (.refl r) hr.inv.shaped.inited hord hlen hi hj⟩

theorem reachable_compare_preorder_firstClone :
    firstClone.ids.length < 2 ^ 31 ∧
      ((firstClone.ids = [0] ∧ castleVersionCompare 0 0 firstClone = none) ∨
        ∃ F, (firstClone.preorder F 0).Perm firstClone.ids ∧
          ∀ i j (hi : i < (firstClone.preorder F 0).length) (hj : j < (firstClone.preorder F 0).length),
          castleVersionCompare (firstClone.preorder F 0)[i] (firstClone.preorder F 0)[j] firstClone =
            some ((i : Int) - j)) :=
  ⟨by decide, reachable_compare_preorder (.new .zeroInit castleVersionNew_firstClone) (by decide)⟩

/-- On every registry the module reaches, `castle_version_da_id_get` of a version present returns
its da id without reaching its `BUG_ON`s, and `castle_version_read` of it reports its da id, its
size, its parent's id (`0` for the root) and that it is a leaf exactly when no version has it
as parent. -/
theorem reachable_version_read {r : Registry} (hr : r.Reachable) {v : Nat} {u : Version}
    (hu : r.get v = some u) :
    castleVersionDaIdGet v r = some u.daId ∧
      castleVersionRead v r = some (u.daId, u.size, u.parent.getD 0,
        decide (∀ c ∈ r.ids, r.parentOf c ≠ some v)) := by
  have hs := hr.inv.shaped
  have hinit := hs.inited v u hu
  refine ⟨by simp [castleVersionDaIdGet, hu, hinit], ?_⟩
  have hfc := (hs.linked v u hu).1
  rw [if_pos hinit] at hfc
  simp only [castleVersionRead, hu, Option.map_some', hfc, Option.some.injEq, Prod.mk.injEq,
    true_and]
  rw [Bool.eq_iff_iff, Option.isNone_iff_eq_none, List.head?_eq_none_iff, decide_eq_true_iff]
  constructor
  · intro hk c _ hp
    obtain ⟨uc, huc, hpc⟩ := parentOf_eq_some.mp hp
    have hc : c ∈ r.kids v := mem_kids.mpr ⟨uc, huc, hs.inited c uc huc, hpc⟩
    rw [hk] at hc
    cases hc
  · intro hno
    refine List.eq_nil_iff_forall_not_mem.mpr fun c hc => ?_
    obtain ⟨uc, huc, -, hpc⟩ := mem_kids.mp hc
    exact hno c (mem_ids_of_get huc) (parentOf_eq_some.mpr ⟨uc, huc, hpc⟩)

/-- The root of `firstClone`, whose clone has it as parent. -/
theorem reachable_version_read_firstClone :
    castleVersionDaIdGet 0 firstClone = some none ∧
      castleVersionRead 0 firstClone = some (none, 0, 0,
        decide (∀ c ∈ firstClone.ids, firstClone.parentOf c ≠ some 0)) :=
  @reachable_version_read firstClone (.new .zeroInit castleVersionNew_firstClone) 0
    ⟨0, none, some 1, none, some 1, some 2, none, 0, true, false, false⟩ rfl

/-! ## The numbering is canonical

Along one list the `o_order`s are the positions, and an interval ends at the last position below
its version: two registries numbered over the same tree carry the same orders.  So processing a
numbered registry changes nothing, and neither does a refused `castle_version_new` once the
registry is numbered. -/

section canonical
variable {r r' : Registry}

/-- Once the preorder `f` levels deep holds every version below `v`, going one level deeper adds
nothing. -/
theorem preorder_succ_of_covers {rank : Nat → Nat}
    (hrank : ∀ v p, r.parentOf v = some p → rank p < rank v) :
    ∀ {f v : Nat}, (∀ w, Below r v w → w ∈ r.preorder f v) → r.preorder (f + 1) v = r.preorder f v
  | 0, v, h => absurd (h v .self) (List.not_mem_nil v)
  | f + 1, v, h => by
    have hkid : ∀ c ∈ r.kids v, r.preorder (f + 1) c = r.preorder f c := fun c hc =>
      preorder_succ_of_covers hrank fun w hw => by
        have hcv := parentOf_of_mem_kids hc
        rcases List.mem_cons.mp (h w ((Below.of_parentOf hcv).trans hw)) with rfl | hw'
        · exact absurd (hw.rank_le hrank) (not_le.mpr (hrank _ _ hcv))
        · obtain ⟨c', hc', hwc'⟩ := List.mem_flatMap.mp hw'
          obtain rfl := Below.eq_of_kids hrank hcv (parentOf_of_mem_kids hc') hw
            (below_of_mem_preorder hwc')
          exact hwc'
    rw [Registry.preorder, Registry.preorder, List.flatMap_congr hkid]

theorem preorder_eq_of_covers {rank : Nat → Nat}
    (hrank : ∀ v p, r.parentOf v = some p → rank p < rank v) {f v : Nat}
    (h : ∀ w, Below r v w → w ∈ r.preorder f v) : ∀ g, f ≤ g → r.preorder g v = r.preorder f v := by
  intro g hg
  induction g, hg using Nat.le_induction with
  | base => rfl
  | succ g _ ih => rw [preorder_succ_of_covers hrank fun w hw => by rw [ih]; exact h w hw, ih]

/-- Along one list, the `o_order`s are the positions. -/
theorem OrderedFrom.oOrder_eq {r₁ r₂ : Registry} {L : List Nat} (h₁ : OrderedFrom r₁ L 0)
    (h₂ : OrderedFrom r₂ L 0) {w o₁ x₁ o₂ x₂ : Nat} (hw : w ∈ L)
    (hw₁ : r₁.orders w = some (o₁, x₁)) (hw₂ : r₂.orders w = some (o₂, x₂)) : o₁ = o₂ := by
  obtain ⟨i, hi, rfl⟩ := List.getElem_of_mem hw
  obtain ⟨y₁, hy₁⟩ := h₁.getElem i hi
  obtain ⟨y₂, hy₂⟩ := h₂.getElem i hi
  rw [hw₁, Option.some_inj, Prod.mk.injEq] at hy₁
  rw [hw₂, Option.some_inj, Prod.mk.injEq] at hy₂
  omega

/-- Two interval numberings along one list, of the same subtrees: an interval ends at the last
position below its version, so neither ends past the other. -/
theorem NumberedFrom.rOrder_le {r₀ r₁ r₂ : Registry} {L : List Nat} (hn₁ : NumberedFrom r₀ r₁ L 0)
    (ho₁ : OrderedFrom r₁ L 0) (hn₂ : NumberedFrom r₀ r₂ L 0) (ho₂ : OrderedFrom r₂ L 0)
    {w o₁ x₁ o₂ x₂ : Nat} (hw : w ∈ L) (hw₁ : r₁.orders w = some (o₁, x₁))
    (hw₂ : r₂.orders w = some (o₂, x₂)) : x₂ ≤ x₁ := by
  have ho := ho₁.oOrder_eq ho₂ hw hw₁ hw₂
  obtain ⟨o, x, h₂, h0, hox, hxL, hint₂⟩ := hn₂ w hw
  rw [hw₂, Option.some_inj, Prod.mk.injEq] at h₂
  obtain ⟨rfl, rfl⟩ := h₂
  obtain ⟨o', x', h₁, -, -, -, hint₁⟩ := hn₁ w hw
  rw [hw₁, Option.some_inj, Prod.mk.injEq] at h₁
  obtain ⟨rfl, rfl⟩ := h₁
  have hk : x₂ - 1 < L.length := by omega
  obtain ⟨y₂, hy₂⟩ := ho₂.getElem _ hk
  obtain ⟨y₁, hy₁⟩ := ho₁.getElem _ hk
  have hb := (hint₂ _ (List.getElem_mem hk) _ _ hy₂).mp ⟨by omega, by omega⟩
  have := ((hint₁ _ (List.getElem_mem hk) _ _ hy₁).mpr hb).2
  omega

theorem orders_unique {r₀ r₁ r₂ : Registry} {L : List Nat} (hn₁ : NumberedFrom r₀ r₁ L 0)
    (ho₁ : OrderedFrom r₁ L 0) (hn₂ : NumberedFrom r₀ r₂ L 0) (ho₂ : OrderedFrom r₂ L 0) :
    ∀ w ∈ L, r₂.orders w = r₁.orders w := fun w hw => by
  obtain ⟨o₁, x₁, h₁, -⟩ := hn₁ w hw
  obtain ⟨o₂, x₂, h₂, -⟩ := hn₂ w hw
  rw [h₁, h₂, ho₁.oOrder_eq ho₂ hw h₁ h₂,
    (hn₁.rOrder_le ho₁ hn₂ ho₂ hw h₁ h₂).antisymm (hn₂.rOrder_le ho₂ hn₁ ho₁ hw h₂ h₁)]

/-- The numbering is canonical: two numbered registries with the same versions, in whatever
order, and the same links carry the same orders. -/
theorem Numbered.orders_eq (h : r.Numbered) (h' : r'.Numbered) (hr : r.Rooted)
    (hids : r'.ids.Perm r.ids)
    (hs : ∀ v, (r'.get v).map Version.links = (r.get v).map Version.links) (w : Nat) :
    r'.orders w = r.orders w := by
  obtain ⟨rank, hrank⟩ := hr.rank
  obtain ⟨F₁, hp₁, ho₁, hn₁⟩ := h
  obtain ⟨F₂, hp₂, ho₂, hn₂⟩ := h'
  have hpre := preorder_congr_kids (kids_congr_perm hids (place_of_links hs))
  rw [hpre] at hp₂ ho₂ hn₂
  have h0 : 0 ∈ r.ids := let ⟨_, hu, _⟩ := hr.root; mem_ids_of_get hu
  have hcov : ∀ F, (r.preorder F 0).Perm r.ids → ∀ w, Below r 0 w → w ∈ r.preorder F 0 :=
    fun F hp w hw => hp.mem_iff.mpr (mem_ids_of_below h0 hw)
  have hL : r.preorder F₂ 0 = r.preorder F₁ 0 := by
    rw [← preorder_eq_of_covers hrank (hcov F₁ hp₁) (max F₁ F₂) (le_max_left _ _),
      preorder_eq_of_covers hrank (hcov F₂ (hp₂.trans hids)) (max F₁ F₂) (le_max_right _ _)]
  rw [hL] at ho₂ hn₂
  by_cases hw : w ∈ r.preorder F₁ 0
  · exact orders_unique hn₁ ho₁
      (hn₂.congr_below fun _ _ _ _ => (below_congr (parentOf_congr (place_of_links hs))).symm) ho₂ w hw
  · have hnone : ∀ r₁ : Registry, r₁.ids.Perm r.ids → r₁.get w = none := fun r₁ hid =>
      Option.not_isSome_iff_eq_none.mp fun h => hw (hp₁.mem_iff.mpr (hid.mem_iff.mp (mem_ids_iff.mpr h)))
    simp only [orders, hnone r (.refl _), hnone r' hids]

theorem Version.eq_of_sansOrders {u u' : Version} (h : u'.sansOrders = u.sansOrders)
    (ho : u'.oOrder = u.oOrder) (hx : u'.rOrder = u.rOrder) : u' = u := by
  cases u; cases u'
  simp only [Version.sansOrders, Version.mk.injEq] at h ho hx ⊢
  simp only [h, ho, hx, and_self]

/-- Two numbered registries that differ in nothing but orders are the same registry, version for
version. -/
theorem Numbered.get_eq (h : r.Numbered) (h' : r'.Numbered) (hr : r.Rooted)
    (hids : r'.ids.Perm r.ids)
    (hs : ∀ y, (r'.get y).map Version.sansOrders = (r.get y).map Version.sansOrders) (y : Nat) :
    r'.get y = r.get y := by
  have hsl : ∀ v, (r'.get v).map Version.links = (r.get v).map Version.links := fun v => by
    have := congrArg (Option.map Version.links) (hs v)
    simpa [Option.map_map, Function.comp_def, Version.links, Version.sansOrders] using this
  cases hy : r.get y with
  | none => simpa [hy] using hs y
  | some u =>
    have hsy := hs y
    rw [hy, Option.map_some'] at hsy
    obtain ⟨u', hu', hsu⟩ := Option.map_eq_some'.mp hsy
    have hoeq := h.orders_eq h' hr hids hsl y
    obtain ⟨F, hp, -, hnum⟩ := h
    obtain ⟨o, x, hyo, -⟩ := hnum y (hp.mem_iff.mpr (mem_ids_of_get hy))
    obtain ⟨u₁, hu₁, ho, hx⟩ := orders_eq_some.mp hyo
    obtain ⟨u₂, hu₂, ho', hx'⟩ := orders_eq_some.mp (hoeq.trans hyo)
    rw [hy, Option.some_inj] at hu₁
    rw [hu', Option.some_inj] at hu₂
    subst hu₁ hu₂
    rw [hu', Version.eq_of_sansOrders hsu (ho'.trans ho.symm) (hx'.trans hx.symm)]

theorem processInitLoop_head {fuel v : Nat} {l : List Nat} (hl : r.initList = v :: l) (err : Int) :
    processInitLoop (fuel + 1) r err none = processInitLoop fuel r err (some v) := by
  simp only [processInitLoop, hl]

theorem processInitLoop_nil {fuel : Nat} (hl : r.initList = []) (err : Int) :
    processInitLoop (fuel + 1) r err none = some (r, err) := by
  simp only [processInitLoop, hl]

/-- Processing a threading registry whose init list holds one version `v`, which processing
leaves uninited: the init loop refused `v` and only emptied the list, and the walk changed
nothing but orders. -/
theorem castleVersionsProcess_refused {v : Nat} {err : Int} (ht : r.Threading)
    (hil : r.initList = [v]) (h : castleVersionsProcess r = some (r', err)) {u : Version}
    (hu : r'.get v = some u) (hui : u.inited = false) :
    OrdersOnly { r with initList := [] } r' := by
  simp only [castleVersionsProcess, Option.bind_eq_bind, Option.bind_eq_some] at h
  obtain ⟨⟨r₁, err₁⟩, hloop, root, -, h⟩ := h
  split_ifs at h
  · simp at h
  simp only [pure, Option.some_bind, Option.bind_eq_some, Option.some.injEq, Prod.mk.injEq] at h
  obtain ⟨r₂, hdfs, rfl, -⟩ := h
  have hoo := dfsLoop_ordersOnly hdfs
  have hloop' : processInitLoop (4 + 1) r 0 none = some (r₁, err₁) := by rw [hil] at hloop; exact hloop
  obtain ⟨-, vv, pId, p, hv, hvi, hvp, hp, hcase⟩ :=
    processInitLoop_step ((processInitLoop_head hil 0).symm.trans hloop')
  have hnil : ({ r with initList := r.initList.erase v } : Registry).initList = [] := by simp [hil]
  rcases hcase with h1 | h1 | ⟨-, h1⟩ | ⟨hpi, r₃, hins, h1⟩
  · rw [processInitLoop_nil hnil, Option.some_inj, Prod.mk.injEq] at h1
    rw [← h1.1, hil, List.erase_cons_head] at hoo
    exact hoo
  · rw [processInitLoop_nil hnil, Option.some_inj, Prod.mk.injEq] at h1
    rw [← h1.1, hil, List.erase_cons_head] at hoo
    exact hoo
  · -- only `v` waits on the list, and `v` is not its own parent
    have hne : pId ≠ v := fun e => by
      obtain ⟨rank, hrank⟩ := ht.rooted.rank
      have := hrank v pId (parentOf_eq_some.mpr ⟨vv, hv, hvp⟩)
      rw [e] at this
      exact lt_irrefl _ this
    simp [processInitLoop, hil, hne] at h1
  · -- threaded, `v` is inited, and stays so through the walk
    obtain ⟨-, -, hil', -, -, -, n, hget⟩ :=
      castleVersionsInsert_threads (ht.setInitList (r.initList.erase v)) hp hpi hv hvi hvp hins
    rw [processInitLoop_nil (hil'.trans hnil), Option.some_inj, Prod.mk.injEq] at h1
    rw [← h1.1] at hoo
    obtain ⟨u', hu', hs⟩ := hoo.get_forth hget
    obtain rfl := Option.some_inj.mp (hu.symm.trans hu')
    rw [Version.inited_of_sansOrders hs] at hui
    cases hui

end canonical

/-! ## Processing again, and a refused new version -/

/-- Processing a numbered registry with nothing waiting to be threaded changes no version:
`castle_versions_process` returns `0` and the walk gives every version the orders it had. -/
theorem process_numbered_unchanged {r : Registry} (hi : r.Inv) (hn : r.Numbered) :
    ∃ r', castleVersionsProcess r = some (r', 0) ∧ ∀ y, r'.get y = r.get y := by
  obtain ⟨r', hproc, hoo, -⟩ :=
    castleVersionsProcess_numbers hi.shaped.rooted hi.shaped.linked hi.shaped.inited hi.initList
  exact ⟨r', hproc, hn.get_eq ((hi.of_ordersOnly hoo).numbered
    (castleVersionsProcess_numbered hi.shaped.threading hproc)) hi.shaped.rooted
    (hoo.2.2.2.1 ▸ .refl _) hoo.2.2.2.2⟩

theorem firstClone_inv : firstClone.Inv := (Reachable.new .zeroInit castleVersionNew_firstClone).inv

theorem firstClone_numbered : firstClone.Numbered :=
  (Reachable.new .zeroInit castleVersionNew_firstClone).numbering.resolve_left
    fun h => absurd h.1 (by decide)

theorem process_numbered_unchanged_firstClone :
    ∃ r', castleVersionsProcess firstClone = some (r', 0) ∧ ∀ y, r'.get y = firstClone.get y :=
  process_numbered_unchanged firstClone_inv firstClone_numbered

/-- On a numbered registry, a `castle_version_new` that returns `INVAL_VERSION` leaves every
version as it was, orders included: an unknown parent or a full count changes no version, and
a version processing refused is removed again from a tree the walk numbered the same way. -/
theorem new_refused_keeps_versions {r r' : Registry} (hi : r.Inv) (hn : r.Numbered)
    {snapOrClone : Bool} {parent size : Nat} {daId : Option Nat}
    (h : castleVersionNew snapOrClone parent daId size r = some (r', none)) (y : Nat) :
    r'.get y = r.get y := by
  rcases hi.new_cases h with ⟨rfl, -⟩ | ⟨l, -, rfl, -⟩ |
    ⟨v, r₃, r₄, err, u, ht₃, hproc, hids₃, hil₃, hget₃, -, hlt, -, -, hu, -, hcase⟩
  · rfl
  · rfl
  rcases hcase with ⟨-, -, hres⟩ | ⟨hui, rfl, -, hnochild⟩
  · cases hres
  have hoo := castleVersionsProcess_refused ht₃ hil₃ hproc hu hui
  have hn₄ : r₄.ids.Nodup := (castleVersionsProcess_threads ht₃ hproc).1.rooted.nodup
  have hvr : r.get v = none := Option.not_isSome_iff_eq_none.mp fun h =>
    lt_irrefl v (hlt v (mem_ids_iff.mpr h))
  refine hn.get_eq ((hi.new h).numbered ((castleVersionsProcess_numbered ht₃ hproc).remove_uninited
    hn₄ hu hui hnochild)) hi.shaped.rooted ?_ (fun y => ?_) y
  · rw [ids_remove, hoo.2.2.2.1]
    show (r₃.ids.erase v).Perm r.ids
    rw [hids₃, List.erase_cons_head]
  · by_cases hy : v = y
    · subst hy
      rw [get_remove_self hn₄, hvr]
    · rw [get_remove_of_ne _ hy, hoo.2.2.2.2 y]
      exact congrArg _ (hget₃ y (Ne.symm hy))

theorem new_refused_keeps_versions_firstClone :
    ∃ r', castleVersionNew true 0 none 0 firstClone = some (r', none) ∧
      ∀ y, r'.get y = firstClone.get y :=
  let ⟨r', h⟩ : ∃ r', castleVersionNew true 0 none 0 firstClone = some (r', none) := ⟨_, rfl⟩
  ⟨r', h, new_refused_keeps_versions firstClone_inv firstClone_numbered h⟩

end Registry
end Versions
end Castle
