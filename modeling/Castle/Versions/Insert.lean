import Castle.Versions.TreeDelete

/-!
# Threading new versions into the tree

`castle_versions_process` takes the versions of the init list one by one and threads each into
its parent's sibling list with `castle_versions_insert`: the sibling walk stops at the first
sibling whose id is not above the new version's, so the list stays in decreasing id order and is
again the parent's children list (`castleVersionsInsert_threads`).  While versions wait on the init
list the registry is `Threading`: a rooted tree whose inited part is linked, with uninited versions
having no links and no inited children.  Each round of the init loop keeps this, and a run of the
loop that ends without refusing a version leaves every version inited (`processInitLoop_threads`).
-/

namespace Castle
namespace Versions

namespace Registry

/-- The registry while versions wait to be threaded: a rooted tree whose sibling links are the
children lists of its inited versions, an inited root, and inited versions under inited
parents. -/
structure Threading (r : Registry) : Prop where
  rooted : r.Rooted
  linked : r.Linked
  rootInited : ∃ u, r.get 0 = some u ∧ u.inited = true
  parents : ∀ v u, r.get v = some u → u.inited = true → ∀ p, u.parent = some p →
    ∃ pu, r.get p = some pu ∧ pu.inited = true

theorem Shaped.threading {r : Registry} (h : r.Shaped) : r.Threading where
  rooted := h.rooted
  linked := h.linked
  rootInited := let ⟨u, hu, _⟩ := h.rooted.root; ⟨u, hu, h.inited 0 u hu⟩
  parents v u hu _ p hp := by
    by_cases hv0 : v = 0
    · subst hv0
      obtain ⟨u', hu', hp'⟩ := h.rooted.root
      rw [hu, Option.some_inj] at hu'
      rw [hu', hp'] at hp
      cases hp
    · obtain ⟨p', hp', hps⟩ := h.rooted.parent v u hu hv0
      obtain rfl := Option.some_inj.mp (hp.symm.trans hp')
      obtain ⟨pu, hpu⟩ := Option.isSome_iff_exists.mp hps
      exact ⟨pu, hpu, h.inited p pu hpu⟩

/-- The init list plays no part in the tree. -/
theorem Threading.setInitList {r : Registry} (h : r.Threading) (l : List Nat) :
    ({ r with initList := l } : Registry).Threading :=
  ⟨⟨h.rooted.nodup, h.rooted.root, h.rooted.parent, h.rooted.rank⟩, h.linked, h.rootInited, h.parents⟩

/-- An id names one version, so an inited version and an uninited one have different ids. -/
theorem ne_of_inited {r : Registry} {x y : Nat} {ux uy : Version} (hx : r.get x = some ux)
    (hxi : ux.inited = true) (hy : r.get y = some uy) (hyi : uy.inited = false) : x ≠ y := by
  rintro rfl
  rw [hx, Option.some_inj] at hy
  rw [hy, hyi] at hxi
  cases hxi

theorem not_mem_kids_of_uninited {r : Registry} {v w : Nat} {vv : Version}
    (hv : r.get v = some vv) (hvi : vv.inited = false) : v ∉ r.kids w := fun h =>
  let ⟨_, hu, hui, _⟩ := mem_kids.mp h
  ne_of_inited hu hui hv hvi rfl

theorem Threading.kids_of_uninited {r : Registry} (h : r.Threading) {v : Nat} {vv : Version}
    (hv : r.get v = some vv) (hvi : vv.inited = false) : r.kids v = [] := by
  rw [List.eq_nil_iff_forall_not_mem]
  intro k hk
  obtain ⟨u, hu, hui, hup⟩ := mem_kids.mp hk
  obtain ⟨pu, hpu, hpui⟩ := h.parents k u hu hui v hup
  exact ne_of_inited hpu hpui hv hvi rfl

/-! ## The sibling walk of `castle_versions_insert` -/

/-- A decreasing list without `v` splits at the place `v` goes: the entries above it, then the
entries below it. -/
theorem exists_insert_split {v : Nat} : ∀ {l : List Nat}, l.Sorted (· ≥ ·) → v ∉ l →
    ∃ A B, l = A ++ B ∧ (∀ a ∈ A, v < a) ∧ ∀ b ∈ B, b < v
  | [], _, _ => ⟨[], [], rfl, by simp, by simp⟩
  | a :: t, hs, hv => by
    have hav : a ≠ v := fun e => hv (by simp [e])
    by_cases hva : v < a
    · obtain ⟨A, B, rfl, hA, hB⟩ :=
        exists_insert_split (List.sorted_cons.mp hs).2 fun h => hv (List.mem_cons_of_mem _ h)
      exact ⟨a :: A, B, rfl, by simpa [hva] using hA, hB⟩
    · refine ⟨[], a :: t, rfl, by simp, fun b hb => ?_⟩
      rcases List.mem_cons.mp hb with rfl | hb
      · omega
      · have := (List.sorted_cons.mp hs).1 b hb
        omega

section insertPos
variable {r : Registry} {vId : Nat}

/-- The walk stops at the first sibling not above `vId`, with the sibling before it. -/
theorem insertPos_split {B : List Nat} (hB : ∀ b ∈ B.head?, ¬ vId < b) :
    ∀ {A pre : List Nat} {fuel : Nat}, (∀ a ∈ A, vId < a) → Chain r (A ++ B) →
      (A ++ B).length < fuel →
      insertPos r vId fuel pre.getLast? (A ++ B).head? = some ((pre ++ A).getLast?, B.head?)
  | [], pre, fuel + 1, _, hc, _ => by
    cases B with
    | nil => simp [insertPos]
    | cons b t =>
      obtain ⟨u, hu, -⟩ := hc.head
      simp [insertPos, hu, hB b rfl]
  | a :: A, pre, fuel + 1, hA, hc, hlen => by
    obtain ⟨u, hu, hn⟩ := hc.head
    have ha : vId < a := hA a (List.mem_cons_self _ _)
    rw [List.cons_append, List.head?_cons]
    simp only [insertPos, hu, Option.some_bind, gt_iff_lt, if_pos ha]
    rw [hn]
    have := @insertPos_split B hB A (pre ++ [a]) fuel (fun a' h => hA a' (List.mem_cons_of_mem _ h))
      hc.tail (by simp at hlen ⊢; omega)
    rwa [List.getLast?_concat, List.append_assoc, List.singleton_append] at this

end insertPos

/-- A registry with the same ids, in any order, and the same parents as a rooted one is
rooted. -/
theorem Rooted.of_perm {r r' : Registry} (hr : r.Rooted) (hids : r'.ids.Perm r.ids)
    (hpar : ∀ y, r'.parentOf y = r.parentOf y) : r'.Rooted where
  nodup := hids.nodup_iff.mpr hr.nodup
  root := by
    obtain ⟨u, hu, hp⟩ := hr.root
    obtain ⟨u', hu'⟩ := Option.isSome_iff_exists.mp
      (mem_ids_iff.mp (hids.mem_iff.mpr (mem_ids_of_get hu)))
    refine ⟨u', hu', ?_⟩
    have := hpar 0
    simp only [parentOf, hu, hu', Option.some_bind, hp] at this
    exact this
  parent v u' hu' hv0 := by
    obtain ⟨u, hu⟩ := Option.isSome_iff_exists.mp (mem_ids_iff.mp (hids.mem_iff.mp (mem_ids_of_get hu')))
    obtain ⟨p, hp, hps⟩ := hr.parent v u hu hv0
    have := hpar v
    rw [parentOf_eq_some.mpr ⟨u, hu, hp⟩, parentOf_eq_some] at this
    obtain ⟨u'', hu'', hp''⟩ := this
    rw [hu', Option.some_inj] at hu''
    exact ⟨p, hu'' ▸ hp'', mem_ids_iff.mp (hids.mem_iff.mpr (mem_ids_iff.mpr hps))⟩
  rank := let ⟨rank, hrank⟩ := hr.rank; ⟨rank, fun v p h => hrank v p (hpar v ▸ h)⟩

/-- A registry with the same ids and the same parents as a rooted one is rooted. -/
theorem Rooted.of_parentOf {r r' : Registry} (hr : r.Rooted) (hids : r'.ids = r.ids)
    (hpar : ∀ y, r'.parentOf y = r.parentOf y) : r'.Rooted :=
  hr.of_perm (hids ▸ List.Perm.refl _) hpar

/-! ## Sibling lists -/

section siblings
variable {r : Registry}

theorem Chain.nil : Chain r [] := fun pre y t e => by simp at e

theorem Chain.cons_iff {y : Nat} {t : List Nat} :
    Chain r (y :: t) ↔ (∃ u, r.get y = some u ∧ u.nextSybling = t.head?) ∧ Chain r t := by
  refine ⟨fun h => ⟨h.head, h.tail⟩, fun ⟨hy, ht⟩ pre z t' e => ?_⟩
  cases pre with
  | nil => obtain ⟨rfl, rfl⟩ := List.cons.inj e; exact hy
  | cons a pre => exact ht pre z t' (List.cons.inj e).2

/-- On a list without repeats, a chain links each entry to the one after it. -/
theorem chain_iff_nextIn {l : List Nat} (hl : l.Nodup) :
    Chain r l ↔ ∀ y ∈ l, ∃ u, r.get y = some u ∧ u.nextSybling = nextIn l y := by
  have hnext : ∀ pre y t, l = pre ++ y :: t → nextIn l y = t.head? := fun pre y t e => by
    subst e
    exact nextIn_append_cons fun hm =>
      (List.nodup_cons.mp (List.nodup_middle.mp hl)).1 (List.mem_append_left _ hm)
  refine ⟨fun h y hy => ?_, fun h pre y t e => ?_⟩
  · obtain ⟨pre, t, e⟩ := List.append_of_mem hy
    rw [hnext pre y t e]
    exact h pre y t e
  · rw [← hnext pre y t e]
    exact h y (by simp [e])

/-- The walk along `next_sybling` from `s` gives `L` exactly when `L` starts at `s`, is a chain
and is shorter than the fuel. -/
theorem siblings_eq_some : ∀ {fuel : Nat} {s : Option Nat} {L : List Nat},
    siblings r fuel s = some L ↔ s = L.head? ∧ Chain r L ∧ L.length < fuel
  | 0, _, _ => by simp [siblings]
  | _ + 1, none, L => by cases L <;> simp [siblings, Chain.nil]
  | fuel + 1, some x, L => by
    simp only [siblings, Option.bind_eq_some, Option.map_eq_some', siblings_eq_some]
    cases L with
    | nil => simp
    | cons y t =>
      simp only [List.cons.injEq, List.head?_cons, Option.some.injEq, Chain.cons_iff,
        List.length_cons, Nat.add_lt_add_iff_right]
      constructor
      · rintro ⟨sv, hx, _, ⟨hn, hc, hl⟩, rfl, rfl⟩
        exact ⟨rfl, ⟨⟨sv, hx, hn⟩, hc⟩, hl⟩
      · rintro ⟨rfl, ⟨⟨sv, hx, hn⟩, hc⟩, hl⟩
        exact ⟨sv, hx, t, ⟨hn, hc, hl⟩, rfl, rfl⟩

end siblings

/-! ## `castle_versions_insert` -/

section insert
variable {r : Registry} {p v : Nat} {pv vv : Version}

theorem walkFuel_modify (id : Nat) (f : Version → Version) : walkFuel (r.modify id f) = walkFuel r := by
  have := congrArg List.length (@ids_modify r id f)
  simp only [ids, List.length_map] at this
  rw [walkFuel, walkFuel, this]

/-- `castle_versions_insert(p, v)` when `p`'s sibling chain splits at `v`'s place into `A ++ B`:
`v`'s next sibling becomes the head of `B`, and the last of `A` (or `p`, when `A` is empty) is
pointed at `v`. -/
theorem castleVersionsInsert_chain (hp : r.get p = some pv) {A B : List Nat}
    (hc : Chain r (A ++ B)) (hfc : pv.firstChild = (A ++ B).head?) (hvAB : v ∉ A ++ B)
    (hA : ∀ a ∈ A, v < a) (hB : ∀ b ∈ B, b < v) (hlen : (A ++ B).length < walkFuel r) :
    castleVersionsInsert p v r = some (relink p (some v) A.getLast?
      ((r.modify v fun u => { u with parent := some p }).modify v
        fun u => { u with nextSybling := B.head? })) := by
  have := @insertPos_split (r.modify v fun u => { u with parent := some p }) v B
    (fun b hb => by have := hB b (List.mem_of_mem_head? hb); omega) A [] (walkFuel r) hA
    (hc.modify (fun _ => rfl) (.inl hvAB)) hlen
  simp only [List.getLast?_nil, List.nil_append] at this
  simp only [castleVersionsInsert, hp, Option.bind_eq_bind, Option.some_bind, hfc, walkFuel_modify, this]
  cases A.getLast? <;> rfl

/-- `castle_versions_insert(p, v)` for an uninited `v` under an inited `p` whose children split
at `v`'s place into `A ++ B`: `v`'s next sibling becomes the head of `B`, and the last of `A` (or
`p`, when `A` is empty) is pointed at `v`. -/
theorem castleVersionsInsert_eq (ht : r.Threading) (hp : r.get p = some pv) (hpi : pv.inited = true)
    (hv : r.get v = some vv) (hvi : vv.inited = false) {A B : List Nat} (hAB : r.kids p = A ++ B)
    (hA : ∀ a ∈ A, v < a) (hB : ∀ b ∈ B, b < v) :
    castleVersionsInsert p v r = some (relink p (some v) A.getLast?
      ((r.modify v fun u => { u with parent := some p }).modify v
        fun u => { u with nextSybling := B.head? })) := by
  refine castleVersionsInsert_chain hp (hAB ▸ ht.linked.chain ht.rooted.nodup p)
    (by rw [(ht.linked p pv hp).1, if_pos hpi, hAB]) (hAB ▸ not_mem_kids_of_uninited hv hvi) hA hB ?_
  rw [← hAB]
  exact kids_length_lt ht.rooted.nodup p


/-- The children lists after threading `v` between `A` and `B` under `p` and initing it: `v`
joins `p`'s list in its place, and every other list stays. -/
theorem kids_insert (ht : r.Threading) (hv : r.get v = some vv) (hvi : vv.inited = false)
    (hvp : vv.parent = some p) {A B : List Nat} (hAB : r.kids p = A ++ B) (hA : ∀ a ∈ A, v < a)
    (hB : ∀ b ∈ B, b < v) {r' : Registry} (hids : r'.ids = r.ids)
    (hgetv : r'.get v = some { vv with nextSybling := B.head?, inited := true })
    (hbody : ∀ y, y ≠ v → (r'.get y).map Version.body = (r.get y).map Version.body) :
    r'.kids p = A ++ v :: B ∧ ∀ w, w ≠ p → r'.kids w = r.kids w := by
  have hn := ht.rooted.nodup
  have hLvn : (A ++ v :: B).Nodup := List.nodup_middle.mpr
    (List.nodup_cons.mpr ⟨hAB ▸ not_mem_kids_of_uninited hv hvi, hAB ▸ kids_nodup hn p⟩)
  have hisKid : ∀ w y, r'.isKid w y = (r.isKid w y || (y == v && w == p)) := fun w y => by
    by_cases hy : y = v
    · subst hy
      simp only [isKid, hgetv, hv, hvi, hvp, Option.any_some, Bool.true_and, Bool.false_and,
        beq_self_eq_true, Bool.false_or, Option.some.injEq, beq_iff_eq]
      by_cases hw : w = p
      · simp [hw]
      · simp [hw, Ne.symm hw]
    · rw [isKid_eq_body, hbody y hy, ← isKid_eq_body]
      simp [hy]
  refine ⟨?_, fun w hw => ?_⟩
  · have hs : (A ++ B).Sorted (· ≥ ·) := hAB ▸ kids_sorted p
    unfold List.Sorted at hs
    refine kids_eq_of_perm ?_ ((List.perm_ext_iff_of_nodup hLvn (hids ▸ hn.filter _)).mpr fun y => ?_)
    · rw [List.pairwise_append] at hs
      refine List.pairwise_append.mpr ⟨hs.1, List.pairwise_cons.mpr ⟨fun b hb => ?_, hs.2.1⟩,
        fun a ha b hb => ?_⟩
      · exact le_of_lt (hB b hb)
      · rcases List.mem_cons.mp hb with rfl | hb
        · exact le_of_lt (hA a ha)
        · exact hs.2.2 a ha b hb
    · have hmem : y ∈ A ++ B ↔ y ∈ r.ids ∧ r.isKid p y = true := by
        rw [← hAB, kids, (List.perm_insertionSort _ _).mem_iff, List.mem_filter]
      rw [List.mem_filter, hids, hisKid, List.mem_append, List.mem_cons, ← or_assoc,
        @or_comm (y ∈ A), or_assoc, ← List.mem_append, hmem]
      by_cases hy : y = v
      · subst hy; simp [mem_ids_of_get hv]
      · simp [hy]
  · unfold kids
    rw [hids]
    congr 2
    funext y
    simp [hisKid, hw]

/-- The sibling links after threading `v` between `A` and `B` and initing it are the children
lists with `v` in its place. -/
theorem linked_insert (ht : r.Threading) (hp : r.get p = some pv) (hpi : pv.inited = true)
    (hv : r.get v = some vv) (hvi : vv.inited = false) (hvp : vv.parent = some p) {A B : List Nat}
    (hAB : r.kids p = A ++ B) (hA : ∀ a ∈ A, v < a) (hB : ∀ b ∈ B, b < v) {r' : Registry}
    (hids : r'.ids = r.ids) (hgetv : r'.get v = some { vv with nextSybling := B.head?, inited := true })
    (hget : ∀ y, y ≠ v → r'.get y = (relink p (some v) A.getLast? r).get y) : r'.Linked := by
  have hbody : ∀ y, y ≠ v → (r'.get y).map Version.body = (r.get y).map Version.body := fun y hy => by
    rw [hget y hy, get_relink_body]
  obtain ⟨hkidsp, hkids⟩ := kids_insert ht hv hvi hvp hAB hA hB hids hgetv hbody
  have hLvn : (A ++ v :: B).Nodup := hkidsp ▸ kids_nodup (hids ▸ ht.rooted.nodup) p
  have hvA : v ∉ A := fun h => (List.nodup_middle.mp hLvn |> List.nodup_cons.mp).1 (List.mem_append_left _ h)
  have hpv : p ≠ v := ne_of_inited hp hpi hv hvi
  intro y u' hu'
  by_cases hyv : y = v
  · subst hyv
    rw [hgetv, Option.some_inj] at hu'
    subst hu'
    have hfc := (ht.linked y vv hv).1
    rw [if_neg (by simp [hvi])] at hfc
    simp only [hfc, if_true, hkids y (Ne.symm hpv), ht.kids_of_uninited hv hvi, List.head?_nil,
      hvp, Option.some_bind, hkidsp, nextIn_append_cons hvA, and_self]
  · obtain ⟨u, hu, -⟩ := Option.map_eq_some'.mp ((hbody y hyv).symm.trans (by rw [hu', Option.map_some']))
    rw [hget y hyv] at hu'
    obtain ⟨hb, hfc', hns'⟩ := relink_links hu hu'
    obtain ⟨hfc, hns⟩ := ht.linked y u hu
    rw [Version.inited_of_body hb, Version.parent_of_body hb]
    have hmemA : ∀ {q}, A.getLast? = some q → q ∈ r.kids p := fun h =>
      hAB ▸ List.mem_append_left _ (List.mem_of_mem_getLast? h)
    cases hui : u.inited with
    | false =>
      rw [if_neg (by simp [hui])] at hfc hns
      rw [hfc', hns', if_neg fun ⟨_, e⟩ => ne_of_inited hp hpi hu hui e,
        if_neg fun h => not_mem_kids_of_uninited hu hui (hmemA h), hfc, hns]
      simp
    | true =>
      rw [if_pos hui] at hfc hns
      rw [if_pos rfl, if_pos rfl]
      constructor
      · rw [hfc']
        split_ifs with h1
        · obtain ⟨hA0, rfl⟩ := h1
          rw [hkidsp, List.getLast?_eq_none_iff.mp hA0]; rfl
        · rw [hfc]
          by_cases hyp : y = p
          · subst hyp
            have hA0 : A ≠ [] := fun e => h1 ⟨by simp [e], rfl⟩
            rw [hkidsp, hAB, List.head?_append_of_ne_nil _ hA0, List.head?_append_of_ne_nil _ hA0]
          · rw [hkids y hyp]
      · -- the last of `A` is a child of `p`; `v` now follows it in `p`'s list
        have hlast : A.getLast? = some y → u.parent = some p := fun h =>
          let ⟨_, hu2, _, hu2p⟩ := mem_kids.mp (hmemA h)
          Option.some_inj.mp (hu2.symm.trans hu) ▸ hu2p
        rw [hns', hns]
        cases hpar : u.parent with
        | none => rw [if_neg fun h => by simpa [hpar] using hlast h]; rfl
        | some w =>
          simp only [Option.some_bind]
          by_cases hwp : w = p
          · subst hwp
            rw [hkidsp, nextIn_insert hLvn hyv, hAB]
          · rw [hkids w hwp, if_neg fun h => hwp (Option.some_inj.mp (hpar.symm.trans (hlast h)))]



/-- Threading an uninited `v` under its inited parent `p` and initing it keeps the registry
threading; `v` is inited with its new next sibling, and every other version keeps everything but
its sibling links. -/
theorem castleVersionsInsert_threads (ht : r.Threading) (hp : r.get p = some pv)
    (hpi : pv.inited = true) (hv : r.get v = some vv) (hvi : vv.inited = false)
    (hvp : vv.parent = some p) {r₃ : Registry} (hins : castleVersionsInsert p v r = some r₃) :
    let r' := r₃.modify v fun u => { u with inited := true }
    r'.Threading ∧ r'.ids = r.ids ∧ r'.initList = r.initList ∧ r'.last = r.last ∧
      r'.versionCnt = r.versionCnt ∧
      (∀ y, y ≠ v → (r'.get y).map Version.body = (r.get y).map Version.body) ∧
      ∃ n, r'.get v = some { vv with nextSybling := n, inited := true } := by
  have hvL : v ∉ r.kids p := not_mem_kids_of_uninited hv hvi
  obtain ⟨A, B, hAB, hA, hB⟩ := exists_insert_split (kids_sorted p) hvL
  rw [castleVersionsInsert_eq ht hp hpi hv hvi hAB hA hB, Option.some_inj] at hins
  subst hins
  intro r'
  set r₂ := (r.modify v fun u => { u with parent := some p }).modify v
    fun u => { u with nextSybling := B.head? }
  have hpv : p ≠ v := ne_of_inited hp hpi hv hvi
  have hget₂ : ∀ y, y ≠ v → r₂.get y = r.get y := fun y hy => by
    rw [get_modify, if_neg (Ne.symm hy), get_modify, if_neg (Ne.symm hy)] <;> intro _ <;> rfl
  have hget : ∀ y, y ≠ v → r'.get y = (relink p (some v) A.getLast? r).get y := fun y hy => by
    rw [get_modify, if_neg (Ne.symm hy), get_relink_congr (hget₂ y hy)]
    intro _; rfl
  have hgetv : r'.get v = some { vv with nextSybling := B.head?, inited := true } := by
    have hne : A.getLast?.getD p ≠ v := by
      cases hq : A.getLast? with
      | none => exact hpv
      | some q => exact fun e => hvL (e ▸ hAB ▸ List.mem_append_left _ (List.mem_of_mem_getLast? hq))
    rw [get_modify, if_pos rfl, get_relink_of_ne hne, get_modify, if_pos rfl, get_modify, if_pos rfl,
      hv]
    · simp only [Option.map_some']
      rw [← hvp]
    all_goals intro _; rfl
  have hids : r'.ids = r.ids := by simp only [r', r₂, ids_modify, ids_relink]
  have hbody : ∀ y, y ≠ v → (r'.get y).map Version.body = (r.get y).map Version.body := fun y hy => by
    rw [hget y hy, get_relink_body]
  have hlift : ∀ y u, r.get y = some u → u.inited = true → ∃ u', r'.get y = some u' ∧ u'.inited = true :=
    fun y u hu hui =>
      let ⟨u', hu', he⟩ := Option.map_eq_some'.mp
        ((hbody y (ne_of_inited hu hui hv hvi)).trans (by rw [hu]; rfl))
      ⟨u', hu', (Version.inited_of_body he).trans hui⟩
  have hpr := @pruned_relink p (some v) A.getLast? r₂
  refine ⟨⟨?_, linked_insert ht hp hpi hv hvi hvp hAB hA hB hids hgetv hget,
    let ⟨u, hu, hui⟩ := ht.rootInited; hlift 0 u hu hui, ?_⟩, hids,
    by simp [r', hpr.initList, r₂], by simp [r', hpr.last, r₂], by simp [r', hpr.versionCnt, r₂],
    hbody, _, hgetv⟩
  · refine ht.rooted.of_parentOf hids fun y => ?_
    by_cases hy : y = v
    · subst hy; simp [parentOf, hgetv, hv, hvp]
    · rw [parentOf_eq_body, hbody y hy, ← parentOf_eq_body]
  · intro y u' hu' hu'i w hw
    by_cases hy : y = v
    · subst hy
      rw [hgetv, Option.some_inj] at hu'
      rw [← hu', hvp, Option.some_inj] at hw
      subst hw
      exact hlift _ pv hp hpi
    · obtain ⟨u, hu, he⟩ := Option.map_eq_some'.mp ((hbody y hy).symm.trans (by rw [hu']; rfl))
      obtain ⟨pw, hpw, hpwi⟩ := ht.parents y u hu ((Version.inited_of_body he).trans hu'i) w
        ((Version.parent_of_body he).trans hw)
      exact hlift w pw hpw hpwi

theorem exists_get_relink {pId : Nat} {vNext prev : Option Nat} {r : Registry} {y : Nat}
    {u : Version} (hu : r.get y = some u) : ∃ u', (relink pId vNext prev r).get y = some u' := by
  have h : ((relink pId vNext prev r).get y).map Version.body = some u.body := by
    rw [get_relink_body, hu, Option.map_some']
  obtain ⟨u', hu', -⟩ := Option.map_eq_some'.mp h
  exact ⟨u', hu'⟩

/-- `castle_versions_insert(p, v)` on a strictly decreasing sibling chain of `p` without `v`:
`v` gets parent `p`, and `p`'s chain is then strictly decreasing and is the old chain with `v`
put in, the old entries kept in their order. -/
theorem insert_keeps_siblings_sorted {fuel : Nat} {L : List Nat} (hp : r.get p = some pv)
    (hv : r.get v = some vv) (hL : siblings r fuel pv.firstChild = some L)
    (hs : L.Sorted (· > ·)) (hvL : v ∉ L) :
    ∃ r', castleVersionsInsert p v r = some r' ∧
      (∃ vv', r'.get v = some vv' ∧ vv'.parent = some p) ∧
      ∃ pv' L', r'.get p = some pv' ∧ siblings r' (fuel + 1) pv'.firstChild = some L' ∧
        L'.Sorted (· > ·) ∧ L'.Perm (v :: L) ∧ L.Sublist L' := by
  obtain ⟨hfc, hc, hlen⟩ := siblings_eq_some.mp hL
  obtain ⟨A, B, rfl, hA, hB⟩ := exists_insert_split (hs.imp le_of_lt) hvL
  have hnd : (A ++ B).Nodup := hs.nodup
  have hLn : (A ++ v :: B).Nodup := List.nodup_middle.mpr (List.nodup_cons.mpr ⟨hvL, hnd⟩)
  have hvA : v ∉ A := fun h => hvL (List.mem_append_left _ h)
  have hget := (chain_iff_nextIn hnd).mp hc
  have hlenw : (A ++ B).length < walkFuel r := by
    have := (List.subperm_of_subset hnd fun y hy =>
      let ⟨_, hu, _⟩ := hget y hy; mem_ids_of_get hu).length_le
    simp only [ids, List.length_map] at this
    exact Nat.lt_succ_of_le this
  set r2 := (r.modify v fun u => { u with parent := some p }).modify v
    fun u => { u with nextSybling := B.head? } with hr2
  set r' := relink p (some v) A.getLast? r2
  have hex : ∀ {y u}, r2.get y = some u → ∃ u', r'.get y = some u' := exists_get_relink
  have hget2 : ∀ y, y ≠ v → r2.get y = r.get y := fun y hy => by
    rw [hr2, get_modify, if_neg (Ne.symm hy), get_modify, if_neg (Ne.symm hy)] <;> intro _ <;> rfl
  have hv2 : r2.get v = some { vv with parent := some p, nextSybling := B.head? } := by
    rw [hr2, get_modify, if_pos rfl, get_modify, if_pos rfl, hv] <;> try intro _
    all_goals rfl
  have hp2 : ∃ u, r2.get p = some u ∧ u.firstChild = pv.firstChild := by
    by_cases hpv : p = v
    · subst hpv
      rw [hp, Option.some_inj] at hv
      exact ⟨_, hv2, by rw [hv]⟩
    · exact ⟨pv, (hget2 p hpv).trans hp, rfl⟩
  refine ⟨r', castleVersionsInsert_chain hp hc hfc hvL hA hB hlenw, ?_, ?_⟩
  · obtain ⟨u', hu'⟩ := hex hv2
    exact ⟨u', hu', Version.parent_of_body (relink_links hv2 hu').1⟩
  obtain ⟨u2, hu2, hu2f⟩ := hp2
  obtain ⟨pv', hpv'⟩ := hex hu2
  have hsorted := List.pairwise_append.mp hs
  refine ⟨pv', A ++ v :: B, hpv', siblings_eq_some.mpr ⟨?_, ?_, ?_⟩,
    List.pairwise_append.mpr ⟨hsorted.1, List.pairwise_cons.mpr ⟨hB, hsorted.2.1⟩, ?_⟩,
    List.perm_middle, (List.sublist_cons_self v B).append_left A⟩
  · -- the first child is the new head
    rw [(relink_links hu2 hpv').2.1, hu2f, hfc]
    cases hAl : A.getLast? with
    | none => rw [List.getLast?_eq_none_iff.mp hAl]; simp
    | some q =>
      have hA0 : A ≠ [] := fun e => by simp [e] at hAl
      rw [if_neg (by simp), List.head?_append_of_ne_nil _ hA0, List.head?_append_of_ne_nil _ hA0]
  · -- the chain links `v` in after the last of `A`
    refine (chain_iff_nextIn hLn).mpr fun y hy => ?_
    by_cases hyv : y = v
    · subst hyv
      obtain ⟨u', hu'⟩ := hex hv2
      refine ⟨u', hu', ?_⟩
      rw [(relink_links hv2 hu').2.2, if_neg (show A.getLast? ≠ some y from fun h => hvA (List.mem_of_mem_getLast? h)),
        nextIn_append_cons hvA]
    · obtain ⟨u, hu, hun⟩ := hget y (by simpa [hyv] using hy)
      rw [← hget2 y hyv] at hu
      obtain ⟨u', hu'⟩ := hex hu
      exact ⟨u', hu', by rw [(relink_links hu hu').2.2, hun, nextIn_insert hLn hyv]⟩
  · simp only [List.length_append, List.length_cons] at hlen ⊢
    omega
  · -- the old entries above `v` stay above it
    intro a ha x hx
    rcases List.mem_cons.mp hx with rfl | hx
    exacts [hA a ha, hsorted.2.2 a ha x hx]

/-- A root with the clones `5` and `2`, and version `3` read but not yet threaded. -/
def twoClones : Registry :=
  ⟨[⟨3, some 0, none, none, none, none, none, 0, false, false, false⟩,
    ⟨2, some 0, none, none, some 3, some 3, none, 0, true, false, false⟩,
    ⟨5, some 0, none, some 2, some 2, some 2, none, 0, true, false, false⟩,
    ⟨0, none, some 5, none, some 1, some 3, none, 0, true, false, false⟩], [], some 5, 4⟩

/-- Threading `3` between the clones `5` and `2` of the root. -/
theorem insert_keeps_siblings_sorted_example :
    ∃ r', castleVersionsInsert 0 3 twoClones = some r' ∧
      (∃ vv', r'.get 3 = some vv' ∧ vv'.parent = some 0) ∧
      ∃ pv' L', r'.get 0 = some pv' ∧ siblings r' 4 pv'.firstChild = some L' ∧
        L'.Sorted (· > ·) ∧ L'.Perm [3, 5, 2] ∧ [5, 2].Sublist L' :=
  @insert_keeps_siblings_sorted twoClones 0 3 _ _ 3 [5, 2] rfl rfl rfl (by decide) (by decide)

end insert

/-! ## The init loop of `castle_versions_process` -/

/-- `r'` has the versions of `r`, with the same parents, and counters; versions inited in `r` are
inited in `r'`. -/
structure Threads (r r' : Registry) : Prop where
  ids : r'.ids = r.ids
  last : r'.last = r.last
  versionCnt : r'.versionCnt = r.versionCnt
  keep : ∀ y u, r.get y = some u →
    ∃ u', r'.get y = some u' ∧ u'.parent = u.parent ∧ (u.inited = true → u'.inited = true)

theorem Threads.refl (r : Registry) : Threads r r :=
  ⟨rfl, rfl, rfl, fun _ u hu => ⟨u, hu, rfl, id⟩⟩

theorem Threads.trans {r r' r'' : Registry} (h : Threads r r') (h' : Threads r' r'') :
    Threads r r'' where
  ids := h'.ids.trans h.ids
  last := h'.last.trans h.last
  versionCnt := h'.versionCnt.trans h.versionCnt
  keep y u hu := by
    obtain ⟨u', hu', hp', hi'⟩ := h.keep y u hu
    obtain ⟨u'', hu'', hp'', hi''⟩ := h'.keep y u' hu'
    exact ⟨u'', hu'', hp''.trans hp', hi'' ∘ hi'⟩

/-- Every version not yet inited waits on the init list. -/
def Covered (r : Registry) : Prop := ∀ y u, r.get y = some u → u.inited = false → y ∈ r.initList

/-- A round of the init loop at `v`: `v` is taken off the list, and then refused (as a snapshot of
a parent with children, or as a clone of an attached leaf), put back in front of its uninited
parent, or threaded under its inited parent. -/
theorem processInitLoop_step {fuel v : Nat} {err err' : Int} {r r' : Registry}
    (h : processInitLoop (fuel + 1) r err (some v) = some (r', err')) :
    v ∈ r.initList ∧ ∃ vv pId p, r.get v = some vv ∧ vv.inited = false ∧ vv.parent = some pId ∧
      r.get pId = some p ∧
      (processInitLoop fuel { r with initList := r.initList.erase v } (-1) none = some (r', err') ∨
        processInitLoop fuel { r with initList := r.initList.erase v } (-2) none = some (r', err') ∨
        (p.inited = false ∧ processInitLoop fuel
          { r with initList := v :: r.initList.erase v } err (some pId) = some (r', err')) ∨
        (p.inited = true ∧ ∃ r₃, castleVersionsInsert pId v { r with initList := r.initList.erase v } =
          some r₃ ∧ processInitLoop fuel (r₃.modify v fun u => { u with inited := true }) err none =
            some (r', err'))) := by
  by_cases hv : v ∈ r.initList
  swap
  · simp only [processInitLoop, hv, not_false_eq_true, if_true] at h; cases h
  simp only [processInitLoop, hv, not_true_eq_false, if_false, Option.bind_eq_some] at h
  refine ⟨hv, ?_⟩
  obtain ⟨vv, hvv, h⟩ := h
  cases hvi : vv.inited
  swap
  · rw [hvi, if_pos rfl] at h; cases h
  rw [hvi, if_neg Bool.false_ne_true] at h
  cases hpar : vv.parent with
  | none => simp [hpar] at h
  | some pId =>
    simp only [hpar, Option.bind_eq_some] at h
    obtain ⟨q, hq, p, hp, h⟩ := h
    cases hq
    refine ⟨vv, pId, p, hvv, hvi, hpar, hp, ?_⟩
    split_ifs at h with h1 h2 h3
    · exact .inl h
    · exact .inr (.inl h)
    · exact .inr (.inr (.inr ⟨by simpa using h3, Option.bind_eq_some.mp h⟩))
    · exact .inr (.inr (.inl ⟨by simpa using h3, h⟩))

/-- A run of the init loop that returns keeps the registry threading, empties the init list and
changes no parent; once an error is recorded it stays, and a run that records none from a
registry whose uninited versions all wait on the list inits every version. -/
theorem processInitLoop_threads : ∀ {fuel : Nat} {r : Registry} {err : Int} {cur : Option Nat}
    {r' : Registry} {err' : Int}, processInitLoop fuel r err cur = some (r', err') → r.Threading →
    r'.Threading ∧ Threads r r' ∧ r'.initList = [] ∧ (err ≠ 0 → err' ≠ 0) ∧
      (err' = 0 → r.Covered → r'.AllInited)
  | 0, _, _, _, _, _, h, _ => by simp [processInitLoop] at h
  | fuel + 1, r, err, none, r', err', h, ht => by
    cases hl : r.initList with
    | nil =>
      simp only [processInitLoop, hl, Option.some.injEq, Prod.mk.injEq] at h
      obtain ⟨rfl, rfl⟩ := h
      refine ⟨ht, .refl r, hl, id, fun _ hc y u hu => ?_⟩
      cases hui : u.inited
      · exact absurd (hc y u hu hui) (by simp [hl])
      · rfl
    | cons v t =>
      simp only [processInitLoop, hl] at h
      exact processInitLoop_threads h ht
  | fuel + 1, r, err, some v, r', err', h, ht => by
    obtain ⟨-, vv, pId, p, hvv, hvi, hvp, hp, hcase⟩ := processInitLoop_step h
    have hsame : ∀ l, Threads r { r with initList := l } := fun _ =>
      ⟨rfl, rfl, rfl, fun _ u hu => ⟨u, hu, rfl, id⟩⟩
    rcases hcase with h | h | ⟨-, h⟩ | ⟨hpi, r₃, hins, h⟩
    · obtain ⟨ht', hth, hil, herr, -⟩ := processInitLoop_threads h (ht.setInitList _)
      exact ⟨ht', (hsame _).trans hth, hil, fun _ => herr (by decide),
        fun h0 => absurd h0 (herr (by decide))⟩
    · obtain ⟨ht', hth, hil, herr, -⟩ := processInitLoop_threads h (ht.setInitList _)
      exact ⟨ht', (hsame _).trans hth, hil, fun _ => herr (by decide),
        fun h0 => absurd h0 (herr (by decide))⟩
    · obtain ⟨ht', hth, hil, herr, hcov⟩ := processInitLoop_threads h (ht.setInitList _)
      refine ⟨ht', (hsame _).trans hth, hil, herr, fun h0 hc => hcov h0 fun y u hu hui => ?_⟩
      by_cases hyv : y = v
      · exact hyv ▸ List.mem_cons_self _ _
      · exact List.mem_cons_of_mem _ ((List.mem_erase_of_ne hyv).mpr (hc y u hu hui))
    · obtain ⟨ht₄, hids, hil₄, hlast, hcnt, hbody, n, hv₄⟩ :=
        castleVersionsInsert_threads (ht.setInitList (r.initList.erase v)) hp hpi hvv hvi hvp hins
      obtain ⟨ht', hth, hil, herr, hcov⟩ := processInitLoop_threads h ht₄
      have hback : ∀ y u', y ≠ v → (r₃.modify v fun u => { u with inited := true }).get y = some u' →
          ∃ u, r.get y = some u ∧ u'.body = u.body := fun y u' hy hu' => by
        have := hbody y hy
        rw [hu'] at this
        obtain ⟨u, hu, he⟩ := Option.map_eq_some'.mp this.symm
        exact ⟨u, hu, he.symm⟩
      have hth₄ : Threads r (r₃.modify v fun u => { u with inited := true }) := by
        refine ⟨hids, hlast, hcnt, fun y u hu => ?_⟩
        by_cases hyv : y = v
        · subst hyv
          rw [hvv, Option.some_inj] at hu
          subst hu
          exact ⟨_, hv₄, rfl, fun _ => rfl⟩
        · obtain ⟨u', hu'⟩ := Option.isSome_iff_exists.mp
            (mem_ids_iff.mp (hids ▸ mem_ids_of_get hu))
          obtain ⟨u₀, hu₀, he⟩ := hback y u' hyv hu'
          rw [hu, Option.some_inj] at hu₀
          subst hu₀
          exact ⟨u', hu', Version.parent_of_body he, fun h => (Version.inited_of_body he).trans h⟩
      refine ⟨ht', hth₄.trans hth, hil, herr, fun h0 hc => hcov h0 fun y u' hu' hui => ?_⟩
      have hyv : y ≠ v := fun e => by
        rw [e, hv₄, Option.some_inj] at hu'
        rw [← hu'] at hui
        cases hui
      obtain ⟨u, hu, he⟩ := hback y u' hyv hu'
      rw [hil₄]
      exact (List.mem_erase_of_ne hyv).mpr (hc y u hu ((Version.inited_of_body he).symm.trans hui))

/-! ## `castle_versions_process` -/

theorem Version.parent_of_sansOrders {u u' : Version} (h : u'.sansOrders = u.sansOrders) :
    u'.parent = u.parent := by
  have := congrArg Version.parent h; exact this

theorem Version.inited_of_sansOrders {u u' : Version} (h : u'.sansOrders = u.sansOrders) :
    u'.inited = u.inited := by
  have := congrArg Version.inited h; exact this

section ordersOnly
variable {r r' : Registry}

theorem OrdersOnly.get_back (h : OrdersOnly r r') {v : Nat} {u' : Version} (hu' : r'.get v = some u') :
    ∃ u, r.get v = some u ∧ u'.sansOrders = u.sansOrders := by
  have := h.2.2.2.2 v
  rw [hu'] at this
  obtain ⟨u, hu, he⟩ := Option.map_eq_some'.mp this.symm
  exact ⟨u, hu, he.symm⟩

theorem OrdersOnly.get_forth (h : OrdersOnly r r') {v : Nat} {u : Version} (hu : r.get v = some u) :
    ∃ u', r'.get v = some u' ∧ u'.sansOrders = u.sansOrders := by
  have := h.2.2.2.2 v
  rw [hu] at this
  exact Option.map_eq_some'.mp this

theorem OrdersOnly.threads (h : OrdersOnly r r') : Threads r r' where
  ids := h.2.2.2.1
  last := h.2.1
  versionCnt := h.2.2.1
  keep y u hu := by
    obtain ⟨u', hu', he⟩ := h.get_forth hu
    exact ⟨u', hu', Version.parent_of_sansOrders he, fun hi => (Version.inited_of_sansOrders he).trans hi⟩

theorem OrdersOnly.threading (h : OrdersOnly r r') (ht : r.Threading) : r'.Threading where
  rooted := h.sameLinks.rooted ht.rooted
  linked := h.sameLinks.linked ht.linked
  rootInited := by
    obtain ⟨u, hu, hui⟩ := ht.rootInited
    obtain ⟨u', hu', he⟩ := h.get_forth hu
    exact ⟨u', hu', (Version.inited_of_sansOrders he).trans hui⟩
  parents v u' hu' hi w hw := by
    obtain ⟨u, hu, he⟩ := h.get_back hu'
    obtain ⟨pu, hpu, hpui⟩ := ht.parents v u hu ((Version.inited_of_sansOrders he).symm.trans hi) w
      ((Version.parent_of_sansOrders he).symm.trans hw)
    obtain ⟨pu', hpu', he'⟩ := h.get_forth hpu
    exact ⟨pu', hpu', (Version.inited_of_sansOrders he').trans hpui⟩

end ordersOnly

/-- `castle_versions_process` on a threading registry: it threads the init list and numbers the
tree, keeping the registry threading and every parent; when it reports no refusal and every
uninited version was waiting on the list, every version is inited. -/
theorem castleVersionsProcess_threads {r r' : Registry} {err : Int} (ht : r.Threading)
    (h : castleVersionsProcess r = some (r', err)) :
    r'.Threading ∧ Threads r r' ∧ r'.initList = [] ∧ (err = 0 → r.Covered → r'.AllInited) := by
  simp only [castleVersionsProcess, Option.bind_eq_bind, Option.bind_eq_some] at h
  obtain ⟨⟨r₁, err₁⟩, hloop, h⟩ := h
  obtain ⟨ht₁, hth₁, hil₁, -, hcov₁⟩ := processInitLoop_threads hloop ht
  obtain ⟨root, -, h⟩ := h
  split_ifs at h
  · simp at h
  simp only [pure, Option.some_bind, Option.bind_eq_some, Option.some.injEq, Prod.mk.injEq] at h
  obtain ⟨r₂, hdfs, rfl, rfl⟩ := h
  have hoo := dfsLoop_ordersOnly hdfs
  exact ⟨hoo.threading ht₁, hth₁.trans hoo.threads, hoo.1.trans hil₁,
    fun h0 hc => hoo.allInited (hcov₁ h0 hc)⟩

end Registry

end Versions
end Castle
