import Castle.Versions.Registry

/-!
# The shape of a registry

A registry's tree is determined by the `parent` of each version; the sibling lists the code
walks are a second copy of it.  Here the children of a version are read off the parents
(`Registry.kids`: its inited children, in decreasing id order) and `Registry.Linked` says that
every version's `first_child` and `next_sybling` are the ones these lists give.
`Registry.Rooted` says the parents form a tree rooted at version `0`, with a rank that grows
from parent to child, and `Registry.Below` is the subtree relation the claims about deletion and
ancestry are stated in.  `Registry.SameLinks` is what the depth-first walk preserves: only the
`o_order` and `r_order` of versions change.
-/

namespace Castle
namespace Versions

/-- The fields a version's place in the tree is made of. -/
def Version.links (u : Version) : Option Nat × Option Nat × Option Nat × Bool :=
  (u.parent, u.firstChild, u.nextSybling, u.inited)

/-- What makes a version a child in the tree: its parent, and whether it is inited. -/
def Version.place (u : Version) : Option Nat × Bool := (u.parent, u.inited)

/-- The entry after `x` in `l`. -/
def nextIn : List Nat → Nat → Option Nat
  | a :: b :: t, x => if a = x then some b else nextIn (b :: t) x
  | _, _ => none

theorem nextIn_append_cons {x : Nat} {rest : List Nat} :
    ∀ {pre : List Nat}, x ∉ pre → nextIn (pre ++ x :: rest) x = rest.head?
  | [], _ => by cases rest <;> simp [nextIn]
  | [a], h => by
    have : a ≠ x := fun e => h (by simp [e])
    cases rest <;> simp [nextIn, this]
  | a :: b :: t, h => by
    have : a ≠ x := fun e => h (by simp [e])
    rw [List.cons_append, List.cons_append, nextIn, if_neg this, ← List.cons_append]
    exact nextIn_append_cons fun hm => h (List.mem_cons_of_mem _ hm)

@[simp] theorem nextIn_cons_self (a : Nat) (l : List Nat) : nextIn (a :: l) a = l.head? := by
  cases l <;> simp [nextIn]

theorem nextIn_cons_of_ne {a x : Nat} (h : a ≠ x) (l : List Nat) : nextIn (a :: l) x = nextIn l x := by
  cases l <;> simp [nextIn, h]

theorem mem_of_nextIn : ∀ {l : List Nat} {x y : Nat}, nextIn l x = some y → x ∈ l ∧ y ∈ l
  | [], _, _, h => by simp [nextIn] at h
  | a :: t, x, y, h => by
    by_cases hax : a = x
    · subst hax
      rw [nextIn_cons_self] at h
      exact ⟨List.mem_cons_self _ _, List.mem_cons_of_mem _ (List.mem_of_mem_head? h)⟩
    · rw [nextIn_cons_of_ne hax] at h
      exact (mem_of_nextIn h).imp (List.mem_cons_of_mem _) (List.mem_cons_of_mem _)

/-- In a list without repeats an entry has at most one predecessor. -/
theorem nextIn_inj : ∀ {l : List Nat}, l.Nodup → ∀ {a b c : Nat}, nextIn l a = some c →
    nextIn l b = some c → a = b
  | [], _, _, _, _, h, _ => by simp [nextIn] at h
  | h :: t, hl, a, b, c, ha, hb => by
    have hfirst : ∀ {x}, x ≠ h → nextIn (h :: t) x = some c → t.head? ≠ some c :=
      fun {x} hx hx' hc => by
        rw [nextIn_cons_of_ne (Ne.symm hx)] at hx'
        rcases t with _ | ⟨d, t'⟩
        · simp at hc
        · simp only [List.head?_cons, Option.some.injEq] at hc
          subst hc
          have hdt' : d ∉ t' := (List.nodup_cons.mp (List.nodup_cons.mp hl).2).1
          by_cases hdx : d = x
          · subst hdx; rw [nextIn_cons_self] at hx'; exact hdt' (List.mem_of_mem_head? hx')
          · rw [nextIn_cons_of_ne hdx] at hx'; exact hdt' (mem_of_nextIn hx').2
    by_cases hah : a = h <;> by_cases hbh : b = h
    · rw [hah, hbh]
    · subst hah; rw [nextIn_cons_self] at ha; exact absurd ha (hfirst hbh hb)
    · subst hbh; rw [nextIn_cons_self] at hb; exact absurd hb (hfirst hah ha)
    · rw [nextIn_cons_of_ne (Ne.symm hah)] at ha
      rw [nextIn_cons_of_ne (Ne.symm hbh)] at hb
      exact nextIn_inj (List.nodup_cons.mp hl).2 ha hb

/-- Taking `c` out of a list joins its predecessor to its successor. -/
theorem nextIn_erase {c y : Nat} (hy : y ≠ c) : ∀ {l : List Nat}, l.Nodup →
    nextIn (l.erase c) y = if nextIn l y = some c then nextIn l c else nextIn l y
  | [], _ => by simp [nextIn]
  | a :: t, hl => by
    have ht := (List.nodup_cons.mp hl).2
    by_cases hac : a = c
    · subst hac
      have : nextIn t y ≠ some a := fun h => (List.nodup_cons.mp hl).1 (mem_of_nextIn h).2
      rw [List.erase_cons_head, nextIn_cons_of_ne (Ne.symm hy), if_neg this]
    · rw [List.erase_cons_tail (by simpa using hac), nextIn_cons_of_ne hac t]
      by_cases hay : a = y
      · subst hay
        rw [nextIn_cons_self, nextIn_cons_self]
        rcases t with _ | ⟨b, t'⟩
        · simp
        · by_cases hbc : b = c
          · subst hbc; simp [nextIn_cons_self]
          · simp [List.erase_cons_tail (show ¬(b == c) by simpa using hbc), hbc]
      · rw [nextIn_cons_of_ne hay, nextIn_cons_of_ne hay, nextIn_erase hy ht]

/-- The last entry before `v` has `v` as its successor. -/
theorem nextIn_last_before {A B : List Nat} {v q : Nat} (h : (A ++ v :: B).Nodup)
    (hq : A.getLast? = some q) : nextIn (A ++ v :: B) q = some v := by
  obtain ⟨A0, rfl⟩ := List.getLast?_eq_some_iff.mp hq
  have h1 : (A0 ++ q :: []).Nodup := h.of_append_left
  have hqA0 : q ∉ A0 := fun hm => (List.nodup_cons.mp (List.nodup_middle.mp h1)).1 (by simp [hm])
  rw [List.append_assoc, List.singleton_append, nextIn_append_cons hqA0]; rfl

/-- In a list without repeats, the entry whose successor is `v` is the last one before `v`. -/
theorem nextIn_eq_pred {A B : List Nat} {v y : Nat} (h : (A ++ v :: B).Nodup)
    (hy : nextIn (A ++ v :: B) y = some v) : A.getLast? = some y := by
  have hvB : v ∉ B := fun hm => (List.nodup_cons.mp (List.nodup_middle.mp h)).1 (by simp [hm])
  cases hA : A.getLast? with
  | none =>
    rw [List.getLast?_eq_none_iff.mp hA, List.nil_append] at hy
    by_cases hvy : v = y
    · subst hvy; rw [nextIn_cons_self] at hy; exact absurd (List.mem_of_mem_head? hy) hvB
    · rw [nextIn_cons_of_ne hvy] at hy; exact absurd (mem_of_nextIn hy).2 hvB
  | some q => rw [nextIn_inj h hy (nextIn_last_before h hA)]

/-- Putting `v` between `A` and `B` makes it the successor of the last entry of `A` and keeps
every other entry's successor. -/
theorem nextIn_insert {A B : List Nat} {v y : Nat} (h : (A ++ v :: B).Nodup) (hy : y ≠ v) :
    nextIn (A ++ v :: B) y = if A.getLast? = some y then some v else nextIn (A ++ B) y := by
  have hvA : v ∉ A := fun hm =>
    (List.nodup_cons.mp (List.nodup_middle.mp h)).1 (List.mem_append_left _ hm)
  have herase : (A ++ v :: B).erase v = A ++ B := by
    rw [List.erase_append_right _ hvA, List.erase_cons_head]
  rw [← herase, nextIn_erase hy h]
  split_ifs with h1 h2
  · exact nextIn_last_before h h1
  · exact absurd (nextIn_eq_pred h h2) h1
  · rfl

theorem nextIn_eq_none_of_not_mem {x : Nat} : ∀ {l : List Nat}, x ∉ l → nextIn l x = none
  | [], _ => rfl
  | a :: t, h => by
    rw [nextIn_cons_of_ne (fun e => h (by rw [e]; exact List.mem_cons_self x t))]
    exact nextIn_eq_none_of_not_mem fun hm => h (List.mem_cons_of_mem _ hm)

namespace Registry

/-- The ids of the table. -/
def ids (r : Registry) : List Nat := r.hash.map (·.version)

/-- The parent of version `v`. -/
def parentOf (r : Registry) (v : Nat) : Option Nat := (r.get v).bind (·.parent)

/-- Whether `v` is an inited child of `p`. -/
def isKid (r : Registry) (p v : Nat) : Bool :=
  (r.get v).any fun u => u.inited && u.parent == some p

/-- The inited children of `p` in decreasing id order: what `p`'s sibling list should hold. -/
def kids (r : Registry) (p : Nat) : List Nat := (r.ids.filter (r.isKid p)).insertionSort (· ≥ ·)

/-- Every version's `first_child` and `next_sybling` are the ones the children lists give: the
first of its children and the next of its parent's, for an inited version; none for one not yet
inited. -/
def Linked (r : Registry) : Prop :=
  ∀ v u, r.get v = some u →
    u.firstChild = (if u.inited then (r.kids v).head? else none) ∧
    u.nextSybling = (if u.inited then u.parent.bind fun p => nextIn (r.kids p) v else none)

/-- The parents form a tree rooted at version `0`: ids are unique, `0` has no parent, every
other version has a registered parent, and a rank grows from each parent to its children. -/
structure Rooted (r : Registry) : Prop where
  nodup : r.ids.Nodup
  root : ∃ u, r.get 0 = some u ∧ u.parent = none
  parent : ∀ v u, r.get v = some u → v ≠ 0 → ∃ p, u.parent = some p ∧ (r.get p).isSome
  rank : ∃ rank : Nat → Nat, ∀ v p, r.parentOf v = some p → rank p < rank v

/-- `v` lies in the subtree of `x`: it is `x`, or its parent does. -/
inductive Below (r : Registry) (x : Nat) : Nat → Prop
  | self : Below r x x
  | child {v p : Nat} : r.parentOf v = some p → Below r x p → Below r x v

/-- Two tables with the same versions, placed alike in the tree. -/
def SameLinks (r r' : Registry) : Prop :=
  r'.ids = r.ids ∧ ∀ v, (r'.get v).map Version.links = (r.get v).map Version.links

section basics
variable {r : Registry}

theorem mem_ids_of_get {v : Nat} {u : Version} (h : r.get v = some u) : v ∈ r.ids := by
  have hu := List.find?_some h
  simp only [decide_eq_true_eq] at hu
  exact List.mem_map.mpr ⟨u, List.mem_of_find?_eq_some h, hu⟩

theorem get_isSome_of_mem_ids {v : Nat} (h : v ∈ r.ids) : (r.get v).isSome := by
  obtain ⟨u, hu, rfl⟩ := List.mem_map.mp h
  exact List.find?_isSome.mpr ⟨u, hu, by simp⟩

theorem mem_ids_iff {v : Nat} : v ∈ r.ids ↔ (r.get v).isSome :=
  ⟨get_isSome_of_mem_ids, fun h => by
    obtain ⟨u, hu⟩ := Option.isSome_iff_exists.mp h
    exact mem_ids_of_get hu⟩

theorem parentOf_eq_some {v p : Nat} :
    r.parentOf v = some p ↔ ∃ u, r.get v = some u ∧ u.parent = some p := by
  simp [parentOf, Option.bind_eq_some]

@[simp] theorem isKid_eq_true {p v : Nat} :
    r.isKid p v = true ↔ ∃ u, r.get v = some u ∧ u.inited = true ∧ u.parent = some p := by
  unfold isKid
  cases r.get v <;> simp

theorem mem_kids {p c : Nat} :
    c ∈ r.kids p ↔ ∃ u, r.get c = some u ∧ u.inited = true ∧ u.parent = some p := by
  rw [kids, (List.perm_insertionSort _ _).mem_iff, List.mem_filter, isKid_eq_true]
  exact ⟨fun h => h.2, fun h => ⟨let ⟨_, hu, _⟩ := h; mem_ids_of_get hu, h⟩⟩

theorem kids_sorted (p : Nat) : (r.kids p).Sorted (· ≥ ·) :=
  List.sorted_insertionSort _ _

theorem kids_nodup (h : r.ids.Nodup) (p : Nat) : (r.kids p).Nodup :=
  (List.perm_insertionSort _ _).nodup_iff.mpr (h.filter _)

theorem kids_length_lt (h : r.ids.Nodup) (p : Nat) : (r.kids p).length < r.hash.length + 1 := by
  have hsub : r.kids p ⊆ r.ids := fun c hc =>
    let ⟨_, hu, _⟩ := mem_kids.mp hc; mem_ids_of_get hu
  have := (List.subperm_of_subset (kids_nodup h p) hsub).length_le
  simp only [ids, List.length_map] at this
  omega

/-- A list of the inited children of `p`, each once and in decreasing order, is `p`'s children
list. -/
theorem kids_eq_of_perm {p : Nat} {l : List Nat} (hs : l.Sorted (· ≥ ·))
    (hp : l.Perm (r.ids.filter (r.isKid p))) : r.kids p = l :=
  List.eq_of_perm_of_sorted ((List.perm_insertionSort _ _).trans hp.symm) (kids_sorted p) hs

end basics

/-! ## Subtrees -/

section below
variable {r : Registry}

theorem Below.of_parentOf {v p : Nat} (h : r.parentOf v = some p) : Below r p v :=
  .child h .self

theorem Below.trans {x y z : Nat} (hxy : Below r x y) (hyz : Below r y z) : Below r x z := by
  induction hyz with
  | self => exact hxy
  | child hp _ ih => exact .child hp ih

/-- A version strictly below `x` is below one of `x`'s children. -/
theorem Below.cases_top {x v : Nat} (h : Below r x v) :
    v = x ∨ ∃ c, r.parentOf c = some x ∧ Below r c v := by
  induction h with
  | self => exact .inl rfl
  | @child v p hv _ ih =>
    rcases ih with rfl | ⟨c, hc, hb⟩
    · exact .inr ⟨v, hv, .self⟩
    · exact .inr ⟨c, hc, .child hv hb⟩

/-- A version strictly below `x` has a parent below `x`. -/
theorem Below.cases_bottom {x v : Nat} (h : Below r x v) :
    v = x ∨ ∃ p, r.parentOf v = some p ∧ Below r x p := by
  cases h with
  | self => exact .inl rfl
  | child hv hb => exact .inr ⟨_, hv, hb⟩

/-- Two versions above a third are one above the other. -/
theorem Below.total {a b w : Nat} (ha : Below r a w) (hb : Below r b w) :
    Below r a b ∨ Below r b a := by
  induction ha with
  | self => exact .inr hb
  | @child w p hw hap ih =>
    rcases hb.cases_bottom with rfl | ⟨q, hq, hbq⟩
    · exact .inl (.child hw hap)
    · rw [hw, Option.some_inj] at hq
      subst hq
      exact ih hbq

variable {rank : Nat → Nat} (hrank : ∀ v p, r.parentOf v = some p → rank p < rank v)
include hrank

theorem Below.rank_le {x v : Nat} (h : Below r x v) : rank x ≤ rank v := by
  induction h with
  | self => exact le_rfl
  | child hv _ ih => exact ih.trans (hrank _ _ hv).le

theorem Below.rank_lt {x v : Nat} (h : Below r x v) (hne : v ≠ x) : rank x < rank v := by
  rcases h.cases_bottom with rfl | ⟨p, hp, hb⟩
  · exact absurd rfl hne
  · exact (hb.rank_le hrank).trans_lt (hrank _ _ hp)

theorem Below.antisymm {x v : Nat} (h : Below r x v) (h' : Below r v x) : x = v := by
  by_contra hne
  exact absurd ((h.rank_lt hrank (Ne.symm hne)).trans_le (h'.rank_le hrank)) (lt_irrefl _)

/-- The subtrees of two children of one version do not meet. -/
theorem Below.eq_of_kids {p c c' w : Nat} (hc : r.parentOf c = some p) (hc' : r.parentOf c' = some p)
    (hw : Below r c w) (hw' : Below r c' w) : c = c' := by
  have step : ∀ {a b}, r.parentOf a = some p → r.parentOf b = some p → Below r a b → a = b :=
    fun {a b} ha hb hab => by
      rcases hab.cases_bottom with rfl | ⟨q, hq, haq⟩
      · rfl
      · rw [hb, Option.some_inj] at hq
        subst hq
        exact absurd (haq.antisymm hrank (.of_parentOf ha)) (fun e => by
          have := hrank _ _ ha; rw [e] at this; exact lt_irrefl _ this)
  rcases hw.total hw' with h | h
  · exact step hc hc' h
  · exact (step hc' hc h).symm

end below

/-! ## Depth-first order -/

/-- The versions below `v` in depth-first order, each version's children in sibling order, `f`
levels deep. -/
def preorder (r : Registry) : Nat → Nat → List Nat
  | 0, _ => []
  | f + 1, v => v :: (r.kids v).flatMap (preorder r f)

section preorder
variable {r : Registry}

theorem parentOf_of_mem_kids {p c : Nat} (h : c ∈ r.kids p) : r.parentOf c = some p := by
  obtain ⟨u, hu, -, hp⟩ := mem_kids.mp h
  exact parentOf_eq_some.mpr ⟨u, hu, hp⟩

theorem below_of_mem_preorder : ∀ {f v w : Nat}, w ∈ r.preorder f v → Below r v w
  | 0, _, _, h => by simp [preorder] at h
  | f + 1, v, w, h => by
    rcases List.mem_cons.mp h with rfl | h
    · exact .self
    · obtain ⟨c, hc, hw⟩ := List.mem_flatMap.mp h
      exact (Below.of_parentOf (parentOf_of_mem_kids hc)).trans (below_of_mem_preorder hw)

variable {rank : Nat → Nat} (hrank : ∀ v p, r.parentOf v = some p → rank p < rank v)
include hrank

theorem nodup_preorder (hn : r.ids.Nodup) : ∀ (f v : Nat), (r.preorder f v).Nodup
  | 0, _ => List.nodup_nil
  | f + 1, v => by
    refine List.nodup_cons.mpr ⟨fun h => ?_, List.nodup_flatMap.mpr
      ⟨fun c _ => nodup_preorder hn f c, (kids_nodup hn v).pairwise_of_forall_ne
        fun c hc c' hc' hne w hw hw' => hne ?_⟩⟩
    · obtain ⟨c, hc, hv⟩ := List.mem_flatMap.mp h
      have hcv := parentOf_of_mem_kids hc
      exact absurd ((below_of_mem_preorder hv).rank_le hrank) (not_le.mpr (hrank _ _ hcv))
    · exact Below.eq_of_kids hrank (parentOf_of_mem_kids hc) (parentOf_of_mem_kids hc')
        (below_of_mem_preorder hw) (below_of_mem_preorder hw')

/-- With every version inited, the preorder `f` levels deep holds every version less than `f`
ranks below `v`. -/
theorem mem_preorder_of_below (hinit : ∀ v u, r.get v = some u → u.inited = true) :
    ∀ {f v w : Nat}, Below r v w → rank w < rank v + f → w ∈ r.preorder f v
  | 0, _, _, hb, hf => absurd (hb.rank_le hrank) (by omega)
  | f + 1, v, w, hb, hf => by
    rcases hb.cases_top with rfl | ⟨c, hc, hcw⟩
    · exact List.mem_cons_self _ _
    · obtain ⟨u, hu, hup⟩ := parentOf_eq_some.mp hc
      have hck : c ∈ r.kids v := mem_kids.mpr ⟨u, hu, hinit c u hu, hup⟩
      have := hrank _ _ hc
      exact List.mem_cons_of_mem _ (List.mem_flatMap.mpr
        ⟨c, hck, mem_preorder_of_below hinit hcw (by omega)⟩)

end preorder

/-! ## Tables placed alike -/

section sameLinks
variable {r r' r'' : Registry}

theorem ids_set (w : Version) : (r.set w).ids = r.ids := by
  simp only [ids, set, List.map_map]
  exact List.map_congr_left fun u _ => by by_cases h : u.version = w.version <;> simp [h]

theorem SameLinks.refl (r : Registry) : SameLinks r r := ⟨rfl, fun _ => rfl⟩

theorem SameLinks.trans (h : SameLinks r r') (h' : SameLinks r' r'') : SameLinks r r'' :=
  ⟨h'.1.trans h.1, fun v => (h'.2 v).trans (h.2 v)⟩

theorem SameLinks.symm (h : SameLinks r r') : SameLinks r' r :=
  ⟨h.1.symm, fun v => (h.2 v).symm⟩

/-- Writing back a version with its links unchanged. -/
theorem sameLinks_set {w u : Version} (hu : r.get w.version = some u) (hl : w.links = u.links) :
    SameLinks r (r.set w) := by
  refine ⟨ids_set w, fun v => ?_⟩
  rw [get_set]
  split_ifs with h
  · subst h; simp [hu, hl]
  · rfl

/-- Writing back a version with new orders. -/
theorem sameLinks_set_orders {v : Nat} {u : Version} (hu : r.get v = some u) (o x : Option Nat) :
    SameLinks r (r.set { u with oOrder := o, rOrder := x }) := by
  have hv : u.version = v := r.version_of_get hu
  exact @sameLinks_set r { u with oOrder := o, rOrder := x } u (by rw [← hv] at hu; exact hu) rfl

/-! Parents, children lists and subtrees read nothing but the parents and init flags of the
versions, and the ids up to their order. -/

theorem place_of_links (h : ∀ v, (r'.get v).map Version.links = (r.get v).map Version.links)
    (v : Nat) : (r'.get v).map Version.place = (r.get v).map Version.place := by
  have := congrArg (Option.map fun l : Option Nat × Option Nat × Option Nat × Bool => (l.1, l.2.2.2))
    (h v)
  simpa only [Option.map_map, Function.comp_def, Version.links] using this

theorem parentOf_congr (h : ∀ v, (r'.get v).map Version.place = (r.get v).map Version.place)
    (v : Nat) : r'.parentOf v = r.parentOf v := by
  have := congrArg (Option.map Prod.fst) (h v)
  simp only [Option.map_map, Function.comp_def, Version.place] at this
  simp only [Registry.parentOf]
  cases h1 : r'.get v <;> cases h2 : r.get v <;> simp_all

theorem isKid_congr (h : ∀ v, (r'.get v).map Version.place = (r.get v).map Version.place)
    (p : Nat) : r'.isKid p = r.isKid p := by
  funext v
  have := congrArg (Option.map fun l : Option Nat × Bool => l.2 && l.1 == some p) (h v)
  simp only [Option.map_map, Function.comp_def, Version.place] at this
  simp only [Registry.isKid]
  cases h1 : r'.get v <;> cases h2 : r.get v <;> simp_all

theorem kids_congr_perm (hids : r'.ids.Perm r.ids)
    (h : ∀ v, (r'.get v).map Version.place = (r.get v).map Version.place) (p : Nat) :
    r'.kids p = r.kids p :=
  kids_eq_of_perm (kids_sorted p) ((List.perm_insertionSort _ _).trans
    (by rw [isKid_congr h p]; exact (hids.filter _).symm))

theorem below_congr (h : ∀ v, r'.parentOf v = r.parentOf v) {x v : Nat} :
    Below r' x v ↔ Below r x v := by
  constructor <;> intro hb <;> induction hb with
  | self => exact .self
  | child hp _ ih => exact .child (by rwa [h] at *) ih

theorem SameLinks.get {v : Nat} {u' : Version} (h : SameLinks r r') (hu' : r'.get v = some u') :
    ∃ u, r.get v = some u ∧ u'.parent = u.parent ∧ u'.firstChild = u.firstChild ∧
      u'.nextSybling = u.nextSybling ∧ u'.inited = u.inited := by
  have := h.2 v
  rw [hu'] at this
  obtain ⟨u, hu, hl⟩ := Option.map_eq_some'.mp this.symm
  simp only [Version.links, Prod.mk.injEq] at hl
  exact ⟨u, hu, hl.1.symm, hl.2.1.symm, hl.2.2.1.symm, hl.2.2.2.symm⟩

theorem SameLinks.parentOf (h : SameLinks r r') (v : Nat) : r'.parentOf v = r.parentOf v :=
  parentOf_congr (place_of_links h.2) v

theorem SameLinks.isKid (h : SameLinks r r') (p : Nat) : r'.isKid p = r.isKid p :=
  isKid_congr (place_of_links h.2) p

theorem SameLinks.kids (h : SameLinks r r') (p : Nat) : r'.kids p = r.kids p := by
  simp [Registry.kids, h.1, h.isKid]

theorem SameLinks.below (h : SameLinks r r') {x v : Nat} : Below r' x v ↔ Below r x v :=
  below_congr h.parentOf

theorem SameLinks.preorder (h : SameLinks r r') : ∀ f v, r'.preorder f v = r.preorder f v
  | 0, _ => rfl
  | f + 1, v => by rw [Registry.preorder, Registry.preorder, h.kids, funext (SameLinks.preorder h f)]

theorem SameLinks.linked (h : SameLinks r r') (hl : r.Linked) : r'.Linked := by
  intro v u' hu'
  obtain ⟨u, hu, hp, hf, hn, hi⟩ := h.get hu'
  rw [hp, hf, hn, hi]
  simp only [h.kids]
  exact hl v u hu

theorem SameLinks.rooted (h : SameLinks r r') (hr : r.Rooted) : r'.Rooted where
  nodup := h.1 ▸ hr.nodup
  root := by
    obtain ⟨u, hu, hp⟩ := hr.root
    have := h.2 0
    rw [hu] at this
    obtain ⟨u', hu', hl⟩ := Option.map_eq_some'.mp this
    simp only [Version.links, Prod.mk.injEq] at hl
    exact ⟨u', hu', hl.1.trans hp⟩
  parent := fun v u' hu' hv => by
    obtain ⟨u, hu, hp, -⟩ := h.get hu'
    obtain ⟨p, hpp, hps⟩ := hr.parent v u hu hv
    refine ⟨p, hp.trans hpp, ?_⟩
    rw [← mem_ids_iff, h.1, mem_ids_iff]
    exact hps
  rank := by
    obtain ⟨rank, hrank⟩ := hr.rank
    exact ⟨rank, fun v p hv => hrank v p (by rwa [h.parentOf] at hv)⟩

end sameLinks

end Registry
end Versions
end Castle
