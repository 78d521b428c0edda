import Castle.Versions.Numbering

/-!
# Deleting a subtree

`castle_version_tree_delete(x)` walks down first children to a leaf, deletes it with
`castle_version_delete` (which unlinks it from its parent's sibling list in
`castle_versions_drop`), climbs back to the parent, and repeats until it has deleted `x`; then it
renumbers the tree.  On a tree whose sibling links are its children lists (`Shaped`), deleting a
leaf removes it and joins its predecessor to its successor (`castleVersionDelete_leaf`); the walk
then deletes the subtree of `x` in post-order within the fuel it is given (`treeDeleteLoop_subtree`),
and the whole call returns `0` with exactly the versions outside the subtree left, their parents
and sibling order kept and the tree renumbered (`castleVersionTreeDelete_prunes`).

The registry with a set of versions removed is described by `Pruned`, as the result of a removal
is in a DOM model: the table keeps its order, the other versions keep everything but their
sibling links, and the links are then fixed by `Linked`.
-/

namespace Castle
namespace Versions

/-- What deletion leaves of a version: everything but its sibling links. -/
def Version.body (u : Version) : Version := { u with firstChild := none, nextSybling := none }

theorem Version.inited_of_body {u u' : Version} (h : u'.body = u.body) : u'.inited = u.inited := by
  have := congrArg Version.inited h; exact this

theorem Version.parent_of_body {u u' : Version} (h : u'.body = u.body) : u'.parent = u.parent := by
  have := congrArg Version.parent h; exact this

theorem Version.attached_of_body {u u' : Version} (h : u'.body = u.body) :
    u'.attached = u.attached := by
  have := congrArg Version.attached h; exact this

namespace Registry

/-- The tree invariant the version operations keep: the parents form a tree rooted at `0`, the
sibling links are the children lists, and every version is inited. -/
structure Shaped (r : Registry) : Prop where
  rooted : r.Rooted
  linked : r.Linked
  inited : r.AllInited

/-- `r'` is `r` without the versions of `D`: the table keeps its order, the other versions keep
everything but their sibling links, and the rest of the registry is unchanged. -/
structure Pruned (r r' : Registry) (D : List Nat) : Prop where
  ids : r'.ids = r.ids.filter (· ∉ D)
  body : ∀ y, y ∉ D → (r'.get y).map Version.body = (r.get y).map Version.body
  initList : r'.initList = r.initList
  last : r'.last = r.last
  versionCnt : r'.versionCnt = r.versionCnt

section pruned
variable {r r' r'' : Registry} {D D' : List Nat}

theorem parentOf_eq_body (r : Registry) (y : Nat) :
    r.parentOf y = ((r.get y).map Version.body).bind (·.parent) := by
  unfold parentOf
  cases r.get y <;> rfl

theorem isKid_eq_body (r : Registry) (p y : Nat) :
    r.isKid p y = ((r.get y).map Version.body).any fun u => u.inited && u.parent == some p := by
  unfold isKid
  cases r.get y <;> rfl

theorem Pruned.refl (r : Registry) : Pruned r r [] := ⟨by simp, fun _ _ => rfl, rfl, rfl, rfl⟩

theorem Pruned.trans (h : Pruned r r' D) (h' : Pruned r' r'' D') : Pruned r r'' (D ++ D') where
  ids := by
    rw [h'.ids, h.ids, List.filter_filter]
    congr 1
    funext y
    by_cases hy : y ∈ D <;> by_cases hy' : y ∈ D' <;> simp [hy, hy']
  body y hy := by
    rw [List.mem_append, not_or] at hy
    rw [h'.body y hy.2, h.body y hy.1]
  initList := h'.initList.trans h.initList
  last := h'.last.trans h.last
  versionCnt := h'.versionCnt.trans h.versionCnt

theorem Pruned.congr (h : Pruned r r' D) (hD : ∀ y, y ∈ D ↔ y ∈ D') : Pruned r r' D' where
  ids := by rw [h.ids]; congr 1; funext y; simp [hD]
  body y hy := h.body y ((hD y).not.mpr hy)
  initList := h.initList
  last := h.last
  versionCnt := h.versionCnt

theorem Pruned.get_of_mem (h : Pruned r r' D) {y : Nat} (hy : y ∈ D) : r'.get y = none := by
  cases hg : r'.get y with
  | none => rfl
  | some u =>
    have := mem_ids_of_get hg
    rw [h.ids, List.mem_filter] at this
    simp [hy] at this

theorem Pruned.get_of_not_mem (h : Pruned r r' D) {y : Nat} (hy : y ∉ D) {u : Version}
    (hu : r.get y = some u) : ∃ u', r'.get y = some u' ∧ u'.body = u.body := by
  have := h.body y hy
  rw [hu] at this
  exact Option.map_eq_some'.mp this

theorem Pruned.get_back (h : Pruned r r' D) {y : Nat} {u' : Version} (hu' : r'.get y = some u') :
    y ∉ D ∧ ∃ u, r.get y = some u ∧ u'.body = u.body := by
  have hy : y ∉ D := fun hy => by rw [h.get_of_mem hy] at hu'; cases hu'
  have := h.body y hy
  rw [hu'] at this
  obtain ⟨u, hu, he⟩ := Option.map_eq_some'.mp this.symm
  exact ⟨hy, u, hu, he.symm⟩

theorem Pruned.parentOf (h : Pruned r r' D) {y : Nat} (hy : y ∉ D) :
    r'.parentOf y = r.parentOf y := by
  rw [parentOf_eq_body, h.body y hy, parentOf_eq_body]

theorem Pruned.isKid (h : Pruned r r' D) (p : Nat) {y : Nat} (hy : y ∉ D) :
    r'.isKid p y = r.isKid p y := by
  rw [isKid_eq_body, h.body y hy, isKid_eq_body]

/-- The children lists of the pruned registry are the old ones without the removed versions. -/
theorem Pruned.kids (h : Pruned r r' D) (p : Nat) : r'.kids p = (r.kids p).filter (· ∉ D) := by
  refine kids_eq_of_perm ((kids_sorted p).filter _) ?_
  refine ((List.perm_insertionSort _ _).filter _).trans (List.Perm.of_eq ?_)
  rw [h.ids, List.filter_filter, List.filter_filter]
  refine List.filter_congr fun y _ => ?_
  by_cases hy : y ∈ D
  · simp [hy]
  · simp [hy, h.isKid p hy]

theorem Pruned.allInited (h : Pruned r r' D) (hi : r.AllInited) : r'.AllInited := fun v u' hu' => by
  obtain ⟨-, u, hu, he⟩ := h.get_back hu'
  exact (congrArg Version.inited he).trans (hi v u hu)

/-- Removing versions keeps the tree rooted when the root stays and no kept version loses its
parent. -/
theorem Pruned.rooted (h : Pruned r r' D) (hr : r.Rooted) (h0 : 0 ∉ D)
    (hclosed : ∀ y p, y ∉ D → r.parentOf y = some p → p ∉ D) : r'.Rooted where
  nodup := h.ids ▸ hr.nodup.filter _
  root := by
    obtain ⟨u, hu, hp⟩ := hr.root
    obtain ⟨u', hu', he⟩ := h.get_of_not_mem h0 hu
    exact ⟨u', hu', (congrArg Version.parent he).trans hp⟩
  parent v u' hu' hv0 := by
    obtain ⟨hv, u, hu, he⟩ := h.get_back hu'
    obtain ⟨p, hp, hps⟩ := hr.parent v u hu hv0
    have hpD := hclosed v p hv (parentOf_eq_some.mpr ⟨u, hu, hp⟩)
    refine ⟨p, (congrArg Version.parent he).trans hp, mem_ids_iff.mp ?_⟩
    rw [h.ids, List.mem_filter]
    exact ⟨mem_ids_iff.mpr hps, by simpa using hpD⟩
  rank := by
    obtain ⟨rank, hrank⟩ := hr.rank
    refine ⟨rank, fun v p hvp => hrank v p ?_⟩
    by_cases hv : v ∈ D
    · rw [parentOf_eq_body, h.get_of_mem hv] at hvp
      cases hvp
    · rwa [h.parentOf hv] at hvp

end pruned

/-! ## Registry edits -/

section edits
variable {r : Registry}

@[simp] theorem initList_modify (id : Nat) (f : Version → Version) :
    (r.modify id f).initList = r.initList := by
  unfold modify; split <;> rfl

@[simp] theorem last_modify (id : Nat) (f : Version → Version) : (r.modify id f).last = r.last := by
  unfold modify; split <;> rfl

@[simp] theorem versionCnt_modify (id : Nat) (f : Version → Version) :
    (r.modify id f).versionCnt = r.versionCnt := by
  unfold modify; split <;> rfl

theorem ids_modify (id : Nat) (f : Version → Version) : (r.modify id f).ids = r.ids := by
  unfold modify; split
  · exact ids_set _
  · rfl

theorem ids_remove (x : Nat) : (r.remove x).ids = r.ids.erase x := by
  simp only [ids, remove, List.erase_eq_eraseP', List.eraseP_map]
  congr 2

theorem get_remove_self (hn : r.ids.Nodup) (x : Nat) : (r.remove x).get x = none := by
  cases h : (r.remove x).get x with
  | none => rfl
  | some u => exact absurd (ids_remove x ▸ mem_ids_of_get h) hn.not_mem_erase

/-- Removing a version, after a change to it, prunes it and nothing else. -/
theorem pruned_remove (hn : r.ids.Nodup) (x : Nat) {g : Version → Version}
    (hg : ∀ u, (g u).version = u.version) : Pruned r ((r.modify x g).remove x) [x] where
  ids := by
    rw [ids_remove, ids_modify, hn.erase_eq_filter]
    congr 1
    funext y
    by_cases h : y = x <;> simp [h]
  body y hy := by
    have hxy : x ≠ y := fun e => hy (by simp [e])
    rw [get_remove_of_ne _ hxy, get_modify _ hg, if_neg hxy]
  initList := initList_modify x g
  last := last_modify x g
  versionCnt := versionCnt_modify x g

/-- Removing a version prunes it and nothing else. -/
theorem pruned_remove_self (hn : r.ids.Nodup) (x : Nat) : Pruned r (r.remove x) [x] where
  ids := by
    rw [ids_remove, hn.erase_eq_filter]
    congr 1
    funext y
    by_cases h : y = x <;> simp [h]
  body y hy := by rw [get_remove_of_ne _ fun e => hy (by simp [e])]
  initList := rfl
  last := rfl
  versionCnt := rfl

end edits

/-! ## Sibling links -/

/-- The `next_sybling` links of `r` run along `l`. -/
def Chain (r : Registry) (l : List Nat) : Prop :=
  ∀ pre y t, l = pre ++ y :: t → ∃ u, r.get y = some u ∧ u.nextSybling = t.head?

section chain
variable {r : Registry}

theorem Chain.head {s : Nat} {t : List Nat} (h : Chain r (s :: t)) :
    ∃ u, r.get s = some u ∧ u.nextSybling = t.head? := h [] s t rfl

theorem Chain.tail {s : Nat} {t : List Nat} (h : Chain r (s :: t)) : Chain r t :=
  fun pre y t' e => h (s :: pre) y t' (by rw [e]; rfl)

theorem Chain.append_right {l l' : List Nat} (h : Chain r (l ++ l')) : Chain r l' :=
  fun pre y t e => h (l ++ pre) y t (by rw [e, List.append_assoc])

/-- A children list is linked by `next_sybling`. -/
theorem Linked.chain (hl : r.Linked) (hn : r.ids.Nodup) (p : Nat) : Chain r (r.kids p) :=
  fun pre y t e => by
    have hy : y ∈ r.kids p := by rw [e]; simp
    obtain ⟨u, hu, -⟩ := mem_kids.mp hy
    exact ⟨u, hu, (Linked.nextSybling_eq hl hn e hu).1⟩

/-- A change that keeps the `next_sybling` of every version, or of every version on `l`, keeps
`l` linked. -/
theorem Chain.modify {l : List Nat} (h : Chain r l) {q : Nat} {f : Version → Version}
    (hf : ∀ u, (f u).version = u.version)
    (hq : q ∉ l ∨ ∀ u, (f u).nextSybling = u.nextSybling) : Chain (r.modify q f) l :=
  fun pre y t e => by
    obtain ⟨u, hu, hn⟩ := h pre y t e
    rw [get_modify _ hf]
    split_ifs with hqy
    · rcases hq with hq | hq
      · exact absurd (by rw [hqy, e]; simp) hq
      · exact ⟨f u, by rw [hu]; rfl, (hq u).trans hn⟩
    · exact ⟨u, hu, hn⟩

end chain

/-! ## Unlinking a version: `castle_versions_drop` -/

/-- The edit both `castle_versions_drop` and `castle_versions_insert` make to a sibling list of
`pId`: the version before a place in the list (`prev`), or the parent when the place is the head,
is pointed at `vNext`. -/
def relink (pId : Nat) (vNext : Option Nat) : Option Nat → Registry → Registry
  | some q, r => r.modify q fun q => { q with nextSybling := vNext }
  | none, r => r.modify pId fun p => { p with firstChild := vNext }

section drop
variable {vId pId : Nat} {vNext : Option Nat}

theorem get_relink_body (prev : Option Nat) (r : Registry) (y : Nat) :
    ((relink pId vNext prev r).get y).map Version.body = (r.get y).map Version.body := by
  cases prev <;>
  · simp only [relink]
    rw [get_modify]
    · split_ifs
      · rw [Option.map_map]; rfl
      · rfl
    · intro _; rfl

theorem ids_relink (prev : Option Nat) (r : Registry) :
    (relink pId vNext prev r).ids = r.ids := by
  cases prev <;> simp only [relink, modify] <;> split <;> simp [ids_set]

theorem pruned_relink (prev : Option Nat) (r : Registry) :
    Pruned r (relink pId vNext prev r) [] where
  ids := by simp [ids_relink]
  body y _ := get_relink_body prev r y
  initList := by cases prev <;> simp [relink]
  last := by cases prev <;> simp [relink]
  versionCnt := by cases prev <;> simp [relink]

theorem get_relink_some {r : Registry} {q : Nat} {uq : Version} (hq : r.get q = some uq) (y : Nat) :
    (relink pId vNext (some q) r).get y =
      if q = y then some { uq with nextSybling := vNext } else r.get y := by
  simp only [relink]
  rw [get_modify]
  · split_ifs with h
    · subst h; simp [hq]
    · rfl
  · intro _; rfl

theorem get_relink_none (r : Registry) (y : Nat) :
    (relink pId vNext none r).get y =
      if pId = y then (r.get y).map fun p => { p with firstChild := vNext } else r.get y := by
  simp only [relink]
  rw [get_modify]
  intro _; rfl

theorem get_modify_congr {r r' : Registry} {f : Version → Version}
    (hf : ∀ u, (f u).version = u.version) {y : Nat} (h : r'.get y = r.get y) (q : Nat) :
    (r'.modify q f).get y = (r.modify q f).get y := by
  rw [get_modify _ hf, get_modify _ hf, h]

theorem get_relink_congr {r r' : Registry} {y : Nat} (h : r'.get y = r.get y) (prev : Option Nat) :
    (relink pId vNext prev r').get y = (relink pId vNext prev r).get y := by
  cases prev <;>
  · simp only [relink]
    apply get_modify_congr _ h
    intro _; rfl

theorem get_relink_of_ne {r : Registry} {y : Nat} {prev : Option Nat} (h : prev.getD pId ≠ y) :
    (relink pId vNext prev r).get y = r.get y := by
  cases prev <;>
  · simp only [relink, Option.getD] at h ⊢
    rw [get_modify, if_neg h]
    intro _; rfl

/-- What `relink` does to one version: at most its first child (when it is the parent and the
place is the head) or its next sibling (when it is the version before the place). -/
theorem relink_links {r : Registry} {prev : Option Nat} {y : Nat} {u u' : Version}
    (hu : r.get y = some u) (hu' : (relink pId vNext prev r).get y = some u') :
    u'.body = u.body ∧ u'.firstChild = (if prev = none ∧ pId = y then vNext else u.firstChild) ∧
      u'.nextSybling = if prev = some y then vNext else u.nextSybling := by
  cases prev <;> simp only [relink] at hu' <;> rw [get_modify, hu] at hu' <;>
    first
    | (split_ifs at hu' with h <;> cases hu' <;> simp [h, Version.body])
    | (intro _; rfl)

theorem dropWalk_pass {fuel s : Nat} {prev : Option Nat} {r : Registry} {u : Version}
    (hs : s ≠ vId) (hu : r.get s = some u) :
    dropWalk vId pId vNext (fuel + 1) prev (some s) r = dropWalk vId pId vNext fuel (some s) u.nextSybling r := by
  simp [dropWalk, hs, hu]

theorem dropWalk_hit {fuel : Nat} {prev : Option Nat} {r : Registry} {u : Version}
    (hu : (relink pId vNext prev r).get vId = some u) :
    dropWalk vId pId vNext (fuel + 1) prev (some vId) r =
      dropWalk vId pId vNext fuel (some vId) u.nextSybling (relink pId vNext prev r) := by
  cases prev <;> simp only [relink] at hu <;> simp [dropWalk, relink, hu]

/-- Past `v`, the walk changes nothing. -/
theorem dropWalk_skip : ∀ {l : List Nat} {fuel : Nat} {prev : Option Nat} {r : Registry},
    vId ∉ l → l.length < fuel → Chain r l → dropWalk vId pId vNext fuel prev l.head? r = some r
  | [], _ + 1, _, _, _, _, _ => rfl
  | s :: t, fuel + 1, prev, r, hv, hlen, hc => by
    obtain ⟨u, hu, hn⟩ := hc.head
    rw [List.head?_cons, dropWalk_pass (fun e => hv (by rw [e]; exact List.mem_cons_self _ _)) hu, hn]
    exact dropWalk_skip (fun hm => hv (List.mem_cons_of_mem _ hm)) (by simp at hlen; omega) hc.tail

/-- The walk over a sibling list `mid ++ v :: rest` reached after `pre`: it unlinks `v` at the
version before it and changes nothing else. -/
theorem dropWalk_unlink {rest : List Nat} (hv : vId ∉ rest) :
    ∀ {mid pre : List Nat} {fuel : Nat} {r : Registry}, vId ∉ mid →
      (mid ++ vId :: rest).length < fuel → Chain r (mid ++ vId :: rest) →
      (∀ q ∈ (pre ++ mid).getLast?, q ∉ vId :: rest) →
      dropWalk vId pId vNext fuel pre.getLast? (mid ++ vId :: rest).head? r =
        some (relink pId vNext (pre ++ mid).getLast? r)
  | [], pre, fuel + 1, r, _, hlen, hc, hq => by
    rw [List.append_nil] at hq ⊢
    have hc' : Chain (relink pId vNext pre.getLast? r) (vId :: rest) := by
      cases hp : pre.getLast? with
      | none => exact hc.modify (fun _ => rfl) (.inr fun _ => rfl)
      | some q => exact hc.modify (fun _ => rfl) (.inl (hq q (by simp [hp])))
    obtain ⟨u, hu, hn⟩ := hc'.head
    rw [List.nil_append, List.head?_cons, dropWalk_hit hu, hn]
    exact dropWalk_skip hv (by simp at hlen; omega) hc'.tail
  | s :: mid, pre, fuel + 1, r, hvm, hlen, hc, hq => by
    obtain ⟨u, hu, hn⟩ := hc.head
    rw [List.cons_append, List.head?_cons,
      dropWalk_pass (fun e => hvm (by rw [e]; exact List.mem_cons_self _ _)) hu, hn]
    have hpre : pre ++ [s] ++ mid = pre ++ s :: mid := by simp
    have ih := @dropWalk_unlink rest hv mid (pre ++ [s]) fuel r
      (fun hm => hvm (List.mem_cons_of_mem _ hm)) (by simp at hlen ⊢; omega) hc.tail
      (by rw [hpre]; exact hq)
    rwa [List.getLast?_concat, hpre] at ih

end drop

/-! ## Deleting a leaf: `castle_version_delete` -/

section leaf
variable {r : Registry}

theorem head?_erase_of_ne {c : Nat} : ∀ {l : List Nat}, l.head? ≠ some c → (l.erase c).head? = l.head?
  | [], _ => rfl
  | a :: t, h => by
    have hac : a ≠ c := fun e => h (by rw [e]; rfl)
    rw [List.erase_cons_tail (by simpa using hac)]
    rfl

/-- The sibling links after unlinking the leaf `c` at its predecessor (or at its parent `p`) and
removing it are the children lists without `c`. -/
theorem linked_unlink_remove (hs : r.Shaped) {c p : Nat} {pre rest : List Nat}
    (hL : r.kids p = pre ++ c :: rest) {r' : Registry} (hpr : Pruned r r' [c])
    (hget : ∀ y, y ≠ c → r'.get y = (relink p rest.head? pre.getLast? r).get y) : r'.Linked := by
  have hn := hs.rooted.nodup
  have hLn : (pre ++ c :: rest).Nodup := hL ▸ kids_nodup hn p
  have hmid := List.nodup_cons.mp (List.nodup_middle.mp hLn)
  have hcpre : c ∉ pre := fun h => hmid.1 (List.mem_append_left _ h)
  have hkids : ∀ w, r'.kids w = (r.kids w).erase c := fun w => by
    rw [hpr.kids, (kids_nodup hn w).erase_eq_filter]
    congr 1
    funext y
    by_cases h : y = c <;> simp [h]
  have hparent_c : ∀ w, c ∈ r.kids w → w = p := fun w hw => by
    obtain ⟨u, hu, -, hup⟩ := mem_kids.mp hw
    obtain ⟨u', hu', -, hup'⟩ := mem_kids.mp (show c ∈ r.kids p by rw [hL]; simp)
    rw [hu, Option.some_inj] at hu'
    subst hu'
    exact Option.some_inj.mp (hup.symm.trans hup')
  have hparent_pre : ∀ q ∈ pre, ∃ uq, r.get q = some uq ∧ uq.parent = some p := fun q hq => by
    obtain ⟨uq, huq, -, hqp⟩ := mem_kids.mp (show q ∈ r.kids p by rw [hL]; simp [hq])
    exact ⟨uq, huq, hqp⟩
  -- the only version whose successor is `c` is the one before it
  have hpred : ∀ v w, nextIn (r.kids w) v = some c → pre.getLast? = some v := fun v w h => by
    obtain rfl := hparent_c w (mem_of_nextIn h).2
    rw [hL] at h
    exact nextIn_eq_pred hLn h
  intro v u' hu'
  have hvc : v ≠ c := fun e => by
    rw [e, hpr.get_of_mem (List.mem_singleton_self c)] at hu'; cases hu'
  obtain ⟨-, u, hu, hbody⟩ := hpr.get_back hu'
  have hui : u.inited = true := hs.inited v u hu
  obtain ⟨hfc, hns⟩ := hs.linked v u hu
  rw [if_pos hui] at hfc hns
  rw [hget v hvc] at hu'
  -- what unlinking did to `v`
  obtain ⟨-, hfc', hns'⟩ := relink_links hu hu'
  rw [Version.inited_of_body hbody, if_pos hui, Version.parent_of_body hbody]
  constructor
  · rw [hfc', hkids]
    split_ifs with h
    · obtain ⟨hpre, rfl⟩ := h
      rw [hL, List.getLast?_eq_none_iff.mp hpre]; simp
    · rw [hfc, head?_erase_of_ne]
      intro hhead
      obtain rfl := hparent_c v (List.mem_of_mem_head? hhead)
      have hpre : pre ≠ [] := fun e => h ⟨by simp [e], rfl⟩
      obtain ⟨a, pre', rfl⟩ := List.exists_cons_of_ne_nil hpre
      rw [hL] at hhead
      simp only [List.cons_append, List.head?_cons, Option.some.injEq] at hhead
      exact hcpre (by simp [hhead])
  · rw [hns']
    split_ifs with h
    · obtain ⟨uv, huv, hvp⟩ := hparent_pre v (List.mem_of_mem_getLast? h)
      rw [hu, Option.some_inj] at huv
      subst huv
      obtain ⟨pre0, rfl⟩ := List.getLast?_eq_some_iff.mp h
      have h1 : (pre0 ++ v :: []).Nodup := hLn.of_append_left
      have hv0 : v ∉ pre0 := fun hm => (List.nodup_cons.mp (List.nodup_middle.mp h1)).1 (by simp [hm])
      have e1 : nextIn (r.kids p) v = some c := by
        rw [hL, List.append_assoc, List.singleton_append, nextIn_append_cons hv0]; rfl
      have e2 : nextIn (r.kids p) c = rest.head? := by rw [hL, nextIn_append_cons hcpre]
      rw [hvp, Option.some_bind, hkids, nextIn_erase hvc (kids_nodup hn p), if_pos e1, e2]
    · rw [hns]
      cases u.parent with
      | none => rfl
      | some w =>
        rw [Option.some_bind, Option.some_bind, hkids, nextIn_erase hvc (kids_nodup hn w),
          if_neg fun h' => h (hpred v w h')]

/-- `castle_version_delete` of a detached leaf other than the root: it returns the leaf's parent
and leaves the tree without the leaf, its predecessor (or its parent) linked to its successor. -/
theorem castleVersionDelete_leaf (hs : r.Shaped) {c : Nat} {cv : Version} (hc : r.get c = some cv)
    (hleaf : r.kids c = []) (hatt : cv.attached = false) (hc0 : c ≠ 0) :
    ∃ r', castleVersionDelete c r = some (r', cv.parent) ∧ r'.Shaped ∧ Pruned r r' [c] := by
  have hn := hs.rooted.nodup
  have hci := hs.inited c cv hc
  obtain ⟨p, hcp, hps⟩ := hs.rooted.parent c cv hc hc0
  obtain ⟨pv, hpv⟩ := Option.isSome_iff_exists.mp hps
  obtain ⟨pre, rest, hL⟩ := List.append_of_mem (mem_kids.mpr ⟨cv, hc, hci, hcp⟩)
  have hLn : (pre ++ c :: rest).Nodup := hL ▸ kids_nodup hn p
  have hmid := List.nodup_cons.mp (List.nodup_middle.mp hLn)
  have hcn := (Linked.nextSybling_eq hs.linked hn hL hc).1
  have hpfc : pv.firstChild = (r.kids p).head? := by
    have := (hs.linked p pv hpv).1
    rwa [if_pos (hs.inited p pv hpv)] at this
  have hwalk : dropWalk c p cv.nextSybling (walkFuel r) none pv.firstChild r =
      some (relink p rest.head? pre.getLast? r) := by
    rw [hcn, hpfc, hL]
    exact @dropWalk_unlink c p rest.head? rest (fun h => hmid.1 (List.mem_append_right _ h)) pre []
      (walkFuel r) r (fun h => hmid.1 (List.mem_append_left _ h))
      (by rw [← hL]; exact kids_length_lt hn p) (hL ▸ hs.linked.chain hn p)
      fun q hq => List.disjoint_of_nodup_append hLn (List.mem_of_mem_getLast? hq)
  set r1 := relink p rest.head? pre.getLast? r
  set g : Version → Version := fun v => { v with nextSybling := none, parent := none }
  have hpr : Pruned r ((r1.modify c g).remove c) [c] :=
    (pruned_relink _ r).trans (pruned_remove (ids_relink _ r ▸ hn) c fun _ => rfl)
  refine ⟨(r1.modify c g).remove c, ?_, ⟨?_, ?_, hpr.allInited hs.inited⟩, hpr⟩
  · simp [castleVersionDelete, castleVersionsDrop, hc, hatt, hci, hcp, hpv, hwalk, r1, g]
  · refine hpr.rooted hs.rooted (by simpa using Ne.symm hc0) fun y q _ hyq hq => ?_
    obtain ⟨u, hu, hup⟩ := parentOf_eq_some.mp hyq
    obtain rfl : q = c := List.mem_singleton.mp hq
    have : y ∈ r.kids q := mem_kids.mpr ⟨u, hu, hs.inited y u hu, hup⟩
    rw [hleaf] at this
    exact List.not_mem_nil y this
  · refine linked_unlink_remove hs hL hpr fun y hy => ?_
    rw [get_remove_of_ne _ (Ne.symm hy),
      get_modify _ (show ∀ u, (g u).version = u.version from fun _ => rfl), if_neg (Ne.symm hy)]

end leaf

/-! ## The deletion walk: `castle_version_tree_delete` -/

section steps
variable {x fuel v : Nat} {r : Registry} {vv : Version}

/-- Going down to the first child. -/
theorem treeDeleteLoop_down {k : Nat} (hv : r.get v = some vv) (hk : vv.firstChild = some k) :
    treeDeleteLoop x (fuel + 1) v r = treeDeleteLoop x fuel k r := by
  simp [treeDeleteLoop, hv, hk]

/-- Deleting a leaf, and stopping if it is `x` or climbing back to its parent. -/
theorem treeDeleteLoop_leaf {r' : Registry} {p : Nat} (hv : r.get v = some vv)
    (hk : vv.firstChild = none) (hdel : castleVersionDelete v r = some (r', some p)) :
    treeDeleteLoop x (fuel + 1) v r = if v = x then some (r', 0) else treeDeleteLoop x fuel p r' := by
  simp [treeDeleteLoop, hv, hk, hdel]

end steps

theorem mem_preorder_self {r : Registry} {f v : Nat} (hf : 0 < f) : v ∈ r.preorder f v := by
  obtain ⟨f, rfl⟩ := Nat.exists_eq_add_of_lt hf
  simp [preorder]

/-- The walk deleting `x` can delete the subtree of `v` of `r₀`: none of it is attached or already
deleted (in `D`), and `x` is not strictly below `v`. -/
def Deletable (r₀ : Registry) (x : Nat) (D : List Nat) (v : Nat) : Prop :=
  ∀ w, Below r₀ v w → (∀ u, r₀.get w = some u → u.attached = false) ∧ w ∉ D ∧ (w = x → w = v)

/-- The walk deleting `x`, from a version `v` of `r₀`, `f` levels deep, in any registry that is
`r₀` with versions outside the subtree of `v` deleted: it deletes the subtree in `2 · size - 1`
steps, and then stops if `v` is `x` or goes on at `v`'s parent. -/
def SubtreeDelete (r₀ : Registry) (x : Nat) (rank : Nat → Nat) (f : Nat) : Prop :=
  ∀ (v p : Nat) (vv : Version) (r : Registry) (D : List Nat), r₀.get v = some vv →
    vv.parent = some p → Deletable r₀ x D v → (∀ w, Below r₀ v w → rank w < rank v + f) →
    r.Shaped → Pruned r₀ r D →
    ∃ r', r'.Shaped ∧ Pruned r₀ r' (D ++ r₀.preorder f v) ∧ ∀ N,
      treeDeleteLoop x (N + (2 * (r₀.preorder f v).length - 1)) v r =
        if v = x then some (r', 0) else treeDeleteLoop x N p r'

section walk
variable {r₀ : Registry} {x : Nat} {rank : Nat → Nat} (hs₀ : r₀.Shaped)
  (hrank : ∀ v p, r₀.parentOf v = some p → rank p < rank v)

include hs₀ hrank in
/-- The walk through the children of `v`, the first ones (`pre`) already deleted: each subtree in
turn, back at `v` after each. -/
theorem treeDeleteLoop_kids {f v : Nat} {vv : Version} (IH : SubtreeDelete r₀ x rank f)
    (hv : r₀.get v = some vv) {D : List Nat} (hdel : Deletable r₀ x D v)
    (hdepth : ∀ w, Below r₀ v w → rank w < rank v + (f + 1)) :
    ∀ (l pre : List Nat) (r : Registry), r₀.kids v = pre ++ l → r.Shaped →
      Pruned r₀ r (D ++ pre.flatMap (r₀.preorder f)) →
      ∃ r', r'.Shaped ∧ Pruned r₀ r' (D ++ (pre ++ l).flatMap (r₀.preorder f)) ∧ ∀ N,
        treeDeleteLoop x (N + 2 * (l.flatMap (r₀.preorder f)).length) v r = treeDeleteLoop x N v r'
  | [], pre, r, _, hs, hp => ⟨r, hs, by simpa using hp, fun N => by simp⟩
  | k :: l, pre, r, hk, hs, hp => by
    have hkn : (pre ++ k :: l).Nodup := hk ▸ kids_nodup hs₀.rooted.nodup v
    have hkv : r₀.parentOf k = some v := parentOf_of_mem_kids (by rw [hk]; simp)
    obtain ⟨kv, hkvg, -, hkvp⟩ := mem_kids.mp (show k ∈ r₀.kids v by rw [hk]; simp)
    have hvk : rank v < rank k := hrank k v hkv
    have hf : 0 < f := by have := hdepth k (.of_parentOf hkv); omega
    -- a version below a later child is in no earlier child's subtree
    have hapart : ∀ k' ∈ k :: l, ∀ w, Below r₀ k' w → w ∉ pre.flatMap (r₀.preorder f) := by
      intro k' hk' w hw hm
      obtain ⟨k'', hk'', hw''⟩ := List.mem_flatMap.mp hm
      have he := Below.eq_of_kids hrank (parentOf_of_mem_kids (by rw [hk]; simp [hk'']))
        (parentOf_of_mem_kids (by rw [hk]; simp [hk'])) (below_of_mem_preorder hw'') hw
      subst he
      exact List.disjoint_of_nodup_append hkn hk'' hk'
    have hdelk : Deletable r₀ x (D ++ pre.flatMap (r₀.preorder f)) k := fun w hw => by
      obtain ⟨hatt, hD, hx⟩ := hdel w ((Below.of_parentOf hkv).trans hw)
      refine ⟨hatt, by simpa [hD] using hapart k (List.mem_cons_self _ _) w hw, fun hwx => ?_⟩
      have := (hx hwx ▸ hw).rank_le hrank
      omega
    obtain ⟨r1, hs1, hp1, hrun1⟩ := IH k v kv r _ hkvg hkvp hdelk
      (fun w hw => by have := hdepth w ((Below.of_parentOf hkv).trans hw); omega) hs hp
    obtain ⟨r2, hs2, hp2, hrun2⟩ := treeDeleteLoop_kids IH hv hdel hdepth l (pre ++ [k]) r1
      (by simp [hk]) hs1 (by simpa using hp1)
    refine ⟨r2, hs2, by simpa using hp2, fun N => ?_⟩
    -- in `r`, the children of `v` are `k :: l`, so its first child is `k`
    have hkids : r.kids v = k :: l := by
      rw [hp.kids, hk, List.filter_append, List.filter_eq_nil_iff.mpr, List.nil_append,
        List.filter_eq_self.mpr]
      · intro k' hk'
        have := hapart k' hk' k' .self
        simp [this, (hdel k' (.of_parentOf (parentOf_of_mem_kids (by rw [hk]; simp [hk'])))).2.1]
      · intro k' hk'
        have : k' ∈ pre.flatMap (r₀.preorder f) := List.mem_flatMap_of_mem hk' (mem_preorder_self hf)
        simp [this]
    have hvD : v ∉ D ++ pre.flatMap (r₀.preorder f) := fun hm => by
      rcases List.mem_append.mp hm with hm | hm
      · exact (hdel v .self).2.1 hm
      · obtain ⟨k', hk', hw⟩ := List.mem_flatMap.mp hm
        have := (below_of_mem_preorder hw).rank_le hrank
        have := hrank k' v (parentOf_of_mem_kids (by rw [hk]; simp [hk']))
        omega
    obtain ⟨vr, hvr, -⟩ := hp.get_of_not_mem hvD hv
    have hfc : vr.firstChild = some k := by
      rw [(hs.linked v vr hvr).1, if_pos (hs.inited v vr hvr), hkids]; rfl
    have hkx : k ≠ x := fun e => by
      rw [(hdel k (.of_parentOf hkv)).2.2 e] at hvk
      exact lt_irrefl _ hvk
    have hpos : 0 < (r₀.preorder f k).length := List.length_pos_of_mem (mem_preorder_self hf)
    rw [show N + 2 * ((k :: l).flatMap (r₀.preorder f)).length =
        N + 2 * (l.flatMap (r₀.preorder f)).length + (2 * (r₀.preorder f k).length - 1) + 1 by
      simp only [List.flatMap_cons, List.length_append]; omega,
      treeDeleteLoop_down hvr hfc, hrun1, if_neg hkx, hrun2]

include hs₀ hrank in
/-- The deletion walk through the subtree of a version, at every depth that covers the subtree:
post-order, each child's subtree before the version itself. -/
theorem treeDeleteLoop_subtree : ∀ f, SubtreeDelete r₀ x rank f
  | 0 => fun v _ _ _ _ _ _ _ hdepth _ _ => absurd (hdepth v .self) (by omega)
  | f + 1 => fun v p vv r D hv hp hdel hdepth hs hpr => by
    have hpre : r₀.preorder (f + 1) v = v :: (r₀.kids v).flatMap (r₀.preorder f) := rfl
    obtain ⟨r1, hs1, hp1, hrun1⟩ := treeDeleteLoop_kids hs₀ hrank (treeDeleteLoop_subtree f) hv hdel
      hdepth (r₀.kids v) [] r (by simp) hs (by simpa using hpr)
    rw [List.nil_append] at hp1
    have hvD : v ∉ D ++ (r₀.kids v).flatMap (r₀.preorder f) := fun hm => by
      rcases List.mem_append.mp hm with hm | hm
      · exact (hdel v .self).2.1 hm
      · obtain ⟨k, hk, hw⟩ := List.mem_flatMap.mp hm
        have := (below_of_mem_preorder hw).rank_le hrank
        have := hrank k v (parentOf_of_mem_kids hk)
        omega
    obtain ⟨vr, hvr, hbody⟩ := hp1.get_of_not_mem hvD hv
    have hleaf : r1.kids v = [] := by
      rw [hp1.kids, List.filter_eq_nil_iff]
      intro k hk
      have hf : 0 < f := by
        have := hdepth k (.of_parentOf (parentOf_of_mem_kids hk))
        have := hrank k v (parentOf_of_mem_kids hk)
        omega
      have : k ∈ (r₀.kids v).flatMap (r₀.preorder f) := List.mem_flatMap_of_mem hk (mem_preorder_self hf)
      simp [this]
    have hfc : vr.firstChild = none := by
      rw [(hs1.linked v vr hvr).1, if_pos (hs1.inited v vr hvr), hleaf]; rfl
    have hv0 : v ≠ 0 := fun e => by
      obtain ⟨u, hu, hup⟩ := hs₀.rooted.root
      rw [← e, hv, Option.some_inj] at hu
      rw [← hu, hp] at hup
      cases hup
    have hatt : vr.attached = false := (Version.attached_of_body hbody).trans ((hdel v .self).1 vv hv)
    obtain ⟨r2, hdel2, hs2, hp2⟩ := castleVersionDelete_leaf hs1 hvr hleaf hatt hv0
    rw [Version.parent_of_body hbody, hp] at hdel2
    refine ⟨r2, hs2, (hp1.trans hp2).congr fun y => ?_, fun N => ?_⟩
    · rw [hpre]
      simp only [List.mem_append, List.mem_cons, List.mem_singleton, List.not_mem_nil, or_false, or_assoc]
      exact or_congr_right or_comm
    · rw [hpre, show N + (2 * (v :: (r₀.kids v).flatMap (r₀.preorder f)).length - 1) =
          N + 1 + 2 * ((r₀.kids v).flatMap (r₀.preorder f)).length by simp only [List.length_cons]; omega,
        hrun1, treeDeleteLoop_leaf hvr hfc hdel2]

end walk

/-- Whatever the deletion walk does before it returns, it deletes leaves of a shaped tree: the
registry it returns is shaped, and the old one pruned. -/
theorem treeDeleteLoop_shaped {x : Nat} : ∀ {fuel cur : Nat} {r r' : Registry} {ret : Int},
    r.Shaped → treeDeleteLoop x fuel cur r = some (r', ret) → r'.Shaped ∧ ∃ D, Pruned r r' D
  | 0, _, _, _, _, _, h => by simp [treeDeleteLoop] at h
  | fuel + 1, cur, r, r', ret, hs, h => by
    simp only [treeDeleteLoop, Option.bind_eq_some] at h
    obtain ⟨c, hc, h⟩ := h
    cases hfc : c.firstChild with
    | some child =>
      simp only [hfc] at h
      exact treeDeleteLoop_shaped hs h
    | none =>
      simp only [hfc, Option.bind_eq_some] at h
      obtain ⟨⟨r₁, par⟩, hdel, h⟩ := h
      obtain ⟨⟨u, hu, hatt, hpar, hsome⟩, -⟩ := castleVersionDelete_some hdel
      rw [hc, Option.some_inj] at hu
      subst hu
      have hleaf : r.kids cur = [] := by
        have := (hs.linked cur c hc).1
        rw [if_pos (hs.inited cur c hc), hfc] at this
        exact List.head?_eq_none_iff.mp this.symm
      have hc0 : cur ≠ 0 := fun e => by
        obtain ⟨u, hu, hp⟩ := hs.rooted.root
        rw [← e, hc, Option.some_inj] at hu
        rw [hu, hp] at hpar
        rw [← hpar] at hsome
        cases hsome
      obtain ⟨r₂, hdel₂, hs₂, hp₂⟩ := castleVersionDelete_leaf hs hc hleaf hatt hc0
      rw [hdel₂, Option.some_inj, Prod.mk.injEq] at hdel
      obtain ⟨rfl, -⟩ := hdel
      cases par with
      | none => cases hsome
      | some p =>
        simp only at h
        split_ifs at h
        · simp only [Option.some.injEq, Prod.mk.injEq] at h
          obtain ⟨rfl, -⟩ := h
          exact ⟨hs₂, _, hp₂⟩
        · obtain ⟨hs', D, hp'⟩ := treeDeleteLoop_shaped hs₂ h
          exact ⟨hs', _, hp₂.trans hp'⟩

/-- The deletion walk never takes its `-EINVAL` exit: a version `castle_version_delete` deletes
always has a parent. -/
theorem treeDeleteLoop_ret {x : Nat} : ∀ {fuel cur : Nat} {r r' : Registry} {ret : Int},
    treeDeleteLoop x fuel cur r = some (r', ret) → ret = 0
  | 0, _, _, _, _, h => by simp [treeDeleteLoop] at h
  | fuel + 1, cur, r, r', ret, h => by
    simp only [treeDeleteLoop, Option.bind_eq_some] at h
    obtain ⟨c, -, h⟩ := h
    cases hfc : c.firstChild with
    | some child =>
      simp only [hfc] at h
      exact treeDeleteLoop_ret h
    | none =>
      simp only [hfc, Option.bind_eq_some] at h
      obtain ⟨⟨r₁, par⟩, hdel, h⟩ := h
      obtain ⟨⟨-, -, -, -, hsome⟩, -⟩ := castleVersionDelete_some hdel
      obtain ⟨p, rfl⟩ := Option.isSome_iff_exists.mp hsome
      simp only at h
      split_ifs at h
      · exact (Prod.mk.inj (Option.some_inj.mp h)).2.symm
      · exact treeDeleteLoop_ret h

theorem preorder_length_le {r : Registry} (hr : r.Rooted) {v : Nat} (hv : v ∈ r.ids) (f : Nat) :
    (r.preorder f v).length ≤ r.hash.length := by
  obtain ⟨rank, hrank⟩ := hr.rank
  have hsub : r.preorder f v ⊆ r.ids := fun w hw => mem_ids_of_below hv (below_of_mem_preorder hw)
  have := (List.subperm_of_subset (nodup_preorder hrank hr.nodup f v) hsub).length_le
  simpa [ids] using this

/-- `castle_version_tree_delete(x)` on a shaped registry with nothing left to thread, for a version
`x` other than the root with nothing attached below it: it deletes exactly the subtree of `x`
(`r₁`), then numbers what is left (`r'`), and returns `0`. -/
theorem castleVersionTreeDelete_prunes {r : Registry} (hs : r.Shaped) (hil : r.initList = [])
    {x : Nat} {xv : Version} (hx : r.get x = some xv) (hx0 : x ≠ 0)
    (hatt : ∀ w u, Below r x w → r.get w = some u → u.attached = false) :
    ∃ D r₁ r', (∀ y, y ∈ D ↔ Below r x y) ∧ Pruned r r₁ D ∧ r₁.Shaped ∧
      castleVersionTreeDelete x r = some (r', 0) ∧ OrdersOnly r₁ r' ∧ NumberedFrom r₁ r' r₁.ids 0 := by
  obtain ⟨rank, hrank⟩ := hs.rooted.rank
  obtain ⟨F, hF⟩ := exists_rank_bound r.ids rank
  obtain ⟨p, hp, -⟩ := hs.rooted.parent x xv hx hx0
  have hxi := mem_ids_of_get hx
  have hdepth : ∀ w, Below r x w → rank w < rank x + F := fun w hw => by
    have := hF w (mem_ids_of_below hxi hw); omega
  obtain ⟨r₁, hs₁, hp₁, hrun⟩ := treeDeleteLoop_subtree hs hrank F x p xv r [] hx hp
    (fun w hw => ⟨fun u hu => hatt w u hw hu, List.not_mem_nil w, id⟩) hdepth hs (Pruned.refl r)
  have hlen := preorder_length_le hs.rooted hxi F
  have hrun' := hrun (2 * r.hash.length + 1 - (2 * (r.preorder F x).length - 1))
  rw [if_pos rfl, show 2 * r.hash.length + 1 - (2 * (r.preorder F x).length - 1) +
    (2 * (r.preorder F x).length - 1) = 2 * r.hash.length + 1 by omega] at hrun'
  obtain ⟨r', hproc, hoo, hnum⟩ :=
    castleVersionsProcess_numbers hs₁.rooted hs₁.linked hs₁.inited (hp₁.initList.trans hil)
  refine ⟨r.preorder F x, r₁, r', fun y => ⟨below_of_mem_preorder, fun hb => ?_⟩, hp₁, hs₁, ?_,
    hoo, hnum⟩
  · exact mem_preorder_of_below hrank hs.inited hb (hdepth y hb)
  · simp [castleVersionTreeDelete, hx, hs.inited x xv hx, hrun', hproc]

end Registry

end Versions
end Castle
