import Castle.Versions.Shape

/-!
# The depth-first numbering of `castle_versions_process`

The walk of `castle_versions_process` numbers the tree without a stack: going down it gives a
version the next `o_order` and moves to its first child (or, at a leaf, sets `r_order` too and
moves on to the next sibling or back to the parent); coming back up it sets the version's
`r_order` to the last number given out and moves on the same way.  On a linked tree this gives
every version its place in the depth-first order as `o_order`, and the last place in its
subtree as `r_order` (`dfsLoop_subtree`), so that `castle_version_is_ancestor` is exact: a
version's interval holds exactly the versions below it (`castleVersionsProcess_exact`).
-/

namespace Castle
namespace Versions

/-- Where the walk goes once it is done with a version: on to its next sibling, going down, or
back up to its parent. -/
def Version.next (u : Version) : Option Nat × Bool :=
  match u.nextSybling with
  | some s => (some s, true)
  | none => (u.parent, false)

section steps
variable {fuel id : Nat} {v : Nat} {r : Registry} {vv : Version}

/-- Going down into a version with a first child. -/
theorem dfsLoop_down {c : Nat} (hv : r.get v = some vv) (hc : vv.firstChild = some c) :
    dfsLoop (fuel + 1) (some v) true id r =
      dfsLoop fuel (some c) true (id + 1) (r.set { vv with oOrder := some (id + 1) }) := by
  simp [dfsLoop, hv, hc]

/-- Going down into a leaf: both its orders, and on. -/
theorem dfsLoop_leaf (hv : r.get v = some vv) (hc : vv.firstChild = none) :
    dfsLoop (fuel + 1) (some v) true id r =
      dfsLoop fuel vv.next.1 vv.next.2 (id + 1)
        (r.set { vv with oOrder := some (id + 1), rOrder := some (id + 1) }) := by
  cases hn : vv.nextSybling <;> simp [dfsLoop, hv, hc, hn, Version.next]

/-- Coming back up to a version: its `r_order`, and on. -/
theorem dfsLoop_up (hv : r.get v = some vv) :
    dfsLoop (fuel + 1) (some v) false id r =
      dfsLoop fuel vv.next.1 vv.next.2 id (r.set { vv with rOrder := some id }) := by
  cases hn : vv.nextSybling <;> simp [dfsLoop, hv, hn, Version.next]

end steps

/-! ## Subtrees along children lists -/

/-- `w` is `x`, or lies below one of `x`'s children along `ch`. -/
inductive Reach (ch : Nat → List Nat) : Nat → Nat → Prop
  | self (x : Nat) : Reach ch x x
  | step {x c w : Nat} : c ∈ ch x → Reach ch c w → Reach ch x w

/-- The versions below `v` along `ch` in depth-first order, `f` levels deep. -/
def preorderBy (ch : Nat → List Nat) : Nat → Nat → List Nat
  | 0, _ => []
  | f + 1, v => v :: (ch v).flatMap (preorderBy ch f)

/-- The steps the walk takes through the subtree of `v` along `ch`, `f` levels deep. -/
def dfsCost (ch : Nat → List Nat) : Nat → Nat → Nat
  | 0, _ => 0
  | f + 1, v => if ch v = [] then 1 else 2 + ((ch v).map (dfsCost ch f)).sum

section preorderBy
variable {ch : Nat → List Nat}

theorem Registry.preorder_eq_preorderBy (r : Registry) : ∀ f v, r.preorder f v = preorderBy r.kids f v
  | 0, _ => rfl
  | f + 1, v => by
    rw [Registry.preorder, preorderBy, funext (Registry.preorder_eq_preorderBy r f)]

theorem reach_of_mem_preorderBy : ∀ {f v w : Nat}, w ∈ preorderBy ch f v → Reach ch v w
  | 0, _, _, h => by simp [preorderBy] at h
  | f + 1, v, w, h => by
    rcases List.mem_cons.mp h with rfl | h
    · exact .self _
    · obtain ⟨c, hc, hw⟩ := List.mem_flatMap.mp h
      exact .step hc (reach_of_mem_preorderBy hw)

theorem dfsCost_le (ch : Nat → List Nat) : ∀ f v, dfsCost ch f v ≤ 2 * (preorderBy ch f v).length
  | 0, _ => le_rfl
  | f + 1, v => by
    have hsum : ∀ l : List Nat, (l.map (dfsCost ch f)).sum ≤ 2 * (l.flatMap (preorderBy ch f)).length := by
      intro l
      induction l with
      | nil => simp
      | cons c l ih =>
        simp only [List.map_cons, List.sum_cons, List.flatMap_cons, List.length_append]
        have := dfsCost_le ch f c
        omega
    have := hsum (ch v)
    by_cases hk : ch v = []
    · simp [dfsCost, preorderBy, hk]
    · simp only [dfsCost, preorderBy, hk, if_false, List.length_cons]
      omega

theorem reach_mem_preorderBy {x w : Nat} (h : Reach ch x w) : ∃ n, w ∈ preorderBy ch (n + 1) x := by
  induction h with
  | self => exact ⟨0, List.mem_cons_self _ _⟩
  | step hc _ ih =>
    obtain ⟨n, hn⟩ := ih
    exact ⟨n + 1, List.mem_cons_of_mem _ (List.mem_flatMap.mpr ⟨_, hc, hn⟩)⟩

/-- A version `n + 1` levels down the preorder is its top or a child of one `n` levels down. -/
theorem mem_preorderBy_succ : ∀ {n x w : Nat}, w ∈ preorderBy ch (n + 1) x →
    w = x ∨ ∃ q ∈ preorderBy ch n x, w ∈ ch q
  | 0, x, w, h => by simpa [preorderBy] using h
  | n + 1, x, w, h => by
    rcases List.mem_cons.mp h with rfl | h
    · exact .inl rfl
    · obtain ⟨c, hc, hw⟩ := List.mem_flatMap.mp h
      refine .inr ?_
      rcases mem_preorderBy_succ hw with rfl | ⟨q, hq, hwq⟩
      · exact ⟨x, List.mem_cons_self _ _, hc⟩
      · exact ⟨q, List.mem_cons_of_mem _ (List.mem_flatMap.mpr ⟨c, hc, hq⟩), hwq⟩

/-- The last step of a path down the chains. -/
theorem Reach.cases_bottom {x w : Nat} (h : Reach ch x w) : w = x ∨ ∃ q, Reach ch x q ∧ w ∈ ch q := by
  induction h with
  | self => exact .inl rfl
  | step hc hcw ih =>
    rcases ih with rfl | ⟨q, hq, hwq⟩
    · exact .inr ⟨_, .self _, hc⟩
    · exact .inr ⟨q, .step hc hq, hwq⟩

end preorderBy

namespace Registry

/-- The `o_order` and `r_order` of version `w`, when it has both. -/
def orders (r : Registry) (w : Nat) : Option (Nat × Nat) :=
  (r.get w).bind fun u => u.oOrder.bind fun o => u.rOrder.map fun x => (o, x)

theorem orders_eq_some {r : Registry} {w o x : Nat} :
    r.orders w = some (o, x) ↔ ∃ u, r.get w = some u ∧ u.oOrder = some o ∧ u.rOrder = some x := by
  simp [orders, Option.bind_eq_some]

/-- The versions of `L` carry orders from `id + 1` to `id + L.length`, and the interval of each
holds exactly the versions of `L` below it in `r₀`. -/
def NumberedFrom (r₀ r : Registry) (L : List Nat) (id : Nat) : Prop :=
  ∀ w ∈ L, ∃ o x, r.orders w = some (o, x) ∧ id < o ∧ o ≤ x ∧ x ≤ id + L.length ∧
    ∀ u ∈ L, ∀ o' x', r.orders u = some (o', x') → (o ≤ o' ∧ o' ≤ x ↔ Below r₀ w u)

/-- The versions of `L` carry the `o_order`s `id + 1`, `id + 2`, ... in the order of `L`. -/
def OrderedFrom (r : Registry) : List Nat → Nat → Prop
  | [], _ => True
  | w :: L, id => (∃ x, r.orders w = some (id + 1, x)) ∧ OrderedFrom r L (id + 1)

end Registry

namespace Registry

section numbered
variable {r₀ r r' : Registry} {L L1 L2 : List Nat} {id : Nat}

theorem NumberedFrom.congr (h : NumberedFrom r₀ r L id) (hL : ∀ w ∈ L, r'.orders w = r.orders w) :
    NumberedFrom r₀ r' L id := by
  intro w hw
  obtain ⟨o, x, hwo, h1, h2, h3, hint⟩ := h w hw
  exact ⟨o, x, (hL w hw).trans hwo, h1, h2, h3, fun u hu o' x' hu' =>
    hint u hu o' x' ((hL u hu).symm.trans hu')⟩

/-- Two numbered runs, one after the other, of versions none of which is below another of the
other run. -/
theorem NumberedFrom.append (h1 : NumberedFrom r₀ r L1 id)
    (h2 : NumberedFrom r₀ r L2 (id + L1.length))
    (hsep : ∀ w ∈ L1, ∀ u ∈ L2, ¬ Below r₀ w u ∧ ¬ Below r₀ u w) :
    NumberedFrom r₀ r (L1 ++ L2) id := by
  have bound1 : ∀ w ∈ L1, ∀ o x, r.orders w = some (o, x) → o ≤ x ∧ x ≤ id + L1.length := by
    intro w hw o x hwo
    obtain ⟨o₁, x₁, h, -, hox, hx, -⟩ := h1 w hw
    rw [hwo, Option.some_inj, Prod.mk.injEq] at h
    omega
  have bound2 : ∀ u ∈ L2, ∀ o x, r.orders u = some (o, x) → id + L1.length < o := by
    intro u hu o x huo
    obtain ⟨o₂, x₂, h, ho, -⟩ := h2 u hu
    rw [huo, Option.some_inj, Prod.mk.injEq] at h
    omega
  intro w hw
  rcases List.mem_append.mp hw with hw | hw
  · obtain ⟨o, x, hwo, h1o, hox, hx, hint⟩ := h1 w hw
    refine ⟨o, x, hwo, h1o, hox, by simp; omega, fun u hu o' x' hu' => ?_⟩
    rcases List.mem_append.mp hu with hu | hu
    · exact hint u hu o' x' hu'
    · have := bound2 u hu o' x' hu'
      exact ⟨fun h => by omega, fun h => absurd h (hsep w hw u hu).1⟩
  · obtain ⟨o, x, hwo, h1o, hox, hx, hint⟩ := h2 w hw
    refine ⟨o, x, hwo, by omega, hox, by simp; omega, fun u hu o' x' hu' => ?_⟩
    rcases List.mem_append.mp hu with hu | hu
    · have := bound1 u hu o' x' hu'
      have := bound2 w hw o x hwo
      exact ⟨fun h => by omega, fun h => absurd h (hsep u hu w hw).2⟩
    · exact hint u hu o' x' hu'

/-- A version numbered first, its interval spanning the run after it, all of which is below it. -/
theorem NumberedFrom.cons {v : Nat} (h : NumberedFrom r₀ r L (id + 1))
    (hv : r.orders v = some (id + 1, id + 1 + L.length))
    (hbelow : ∀ u ∈ L, Below r₀ v u ∧ ¬ Below r₀ u v) :
    NumberedFrom r₀ r (v :: L) id := by
  have hin : ∀ u ∈ L, ∀ o x, r.orders u = some (o, x) →
      id + 1 < o ∧ o ≤ x ∧ x ≤ id + 1 + L.length := by
    intro u hu o x huo
    obtain ⟨o₁, x₁, h', ho, hox, hx, -⟩ := h u hu
    rw [huo, Option.some_inj, Prod.mk.injEq] at h'
    omega
  intro w hw
  rcases List.mem_cons.mp hw with rfl | hw
  · refine ⟨id + 1, id + 1 + L.length, hv, by omega, by omega, by simp; omega,
      fun u hu o' x' hu' => ?_⟩
    rcases List.mem_cons.mp hu with rfl | hu
    · rw [hv, Option.some_inj, Prod.mk.injEq] at hu'
      exact ⟨fun _ => .self, fun _ => by omega⟩
    · have := hin u hu o' x' hu'
      exact ⟨fun _ => (hbelow u hu).1, fun _ => by omega⟩
  · obtain ⟨o, x, hwo, h1o, hox, hx, hint⟩ := h w hw
    have hwv := (hbelow w hw).2
    refine ⟨o, x, hwo, by omega, hox, by simp; omega, fun u hu o' x' hu' => ?_⟩
    rcases List.mem_cons.mp hu with rfl | hu
    · rw [hv, Option.some_inj, Prod.mk.injEq] at hu'
      exact ⟨fun h => by omega, fun h => absurd h hwv⟩
    · exact hint u hu o' x' hu'

theorem OrderedFrom.congr : ∀ {L : List Nat} {id : Nat}, OrderedFrom r L id →
    (∀ w ∈ L, r'.orders w = r.orders w) → OrderedFrom r' L id
  | [], _, _, _ => trivial
  | w :: _, _, ⟨⟨x, hw⟩, h⟩, hL =>
    ⟨⟨x, (hL w (List.mem_cons_self _ _)).trans hw⟩,
      h.congr fun u hu => hL u (List.mem_cons_of_mem _ hu)⟩

theorem OrderedFrom.append : ∀ {L1 : List Nat} {id : Nat}, OrderedFrom r L1 id →
    OrderedFrom r L2 (id + L1.length) → OrderedFrom r (L1 ++ L2) id
  | [], _, _, h2 => h2
  | _ :: L1, id, ⟨hw, h1⟩, h2 =>
    ⟨hw, h1.append (by rwa [List.length_cons, ← Nat.add_assoc, Nat.add_right_comm] at h2)⟩

theorem OrderedFrom.getElem : ∀ {L : List Nat} {id : Nat}, OrderedFrom r L id →
    ∀ i (hi : i < L.length), ∃ x, r.orders L[i] = some (id + i + 1, x)
  | w :: L, _, ⟨hw, _⟩, 0, _ => hw
  | _ :: L, id, ⟨_, h⟩, i + 1, hi => by
    obtain ⟨x, hx⟩ := h.getElem i (by simpa using hi)
    exact ⟨x, by rw [List.getElem_cons_succ, hx]; congr 2; omega⟩

end numbered

end Registry

namespace Registry

/-- `ch` lists, in sibling order, the children of every version below `x` along it: such a
version is in the table with the head of its list as first child, and each version of its list
has it as parent and the next one of the list as next sibling. -/
def ThreadedBy (r : Registry) (ch : Nat → List Nat) (x : Nat) : Prop :=
  ∀ w, Reach ch x w → (ch w).Nodup ∧ (∃ wv, r.get w = some wv ∧ wv.firstChild = (ch w).head?) ∧
    ∀ c ∈ ch w, ∃ cv, r.get c = some cv ∧ cv.parent = some w ∧ cv.nextSybling = nextIn (ch w) c

section threaded
variable {r : Registry} {ch : Nat → List Nat} {x c w : Nat}

theorem ThreadedBy.child (h : ThreadedBy r ch x) (hc : c ∈ ch x) : ThreadedBy r ch c :=
  fun w hw => h w (.step hc hw)

theorem ThreadedBy.parentOf (h : ThreadedBy r ch x) (hc : c ∈ ch x) : r.parentOf c = some x :=
  let ⟨cv, hcv, hp, _⟩ := (h x (.self x)).2.2 c hc
  parentOf_eq_some.mpr ⟨cv, hcv, hp⟩

theorem ThreadedBy.below (h : ThreadedBy r ch x) (hw : Reach ch x w) : Below r x w := by
  induction hw with
  | self => exact .self
  | step hc _ ih => exact (Below.of_parentOf (h.parentOf hc)).trans (ih (h.child hc))

theorem ThreadedBy.mem_ids (h : ThreadedBy r ch x) (hw : Reach ch x w) : w ∈ r.ids :=
  let ⟨_, ⟨_, hwv, _⟩, _⟩ := h w hw
  mem_ids_of_get hwv

variable {rank : Nat → Nat} (hrank : ∀ v p, r.parentOf v = some p → rank p < rank v)
include hrank

theorem ThreadedBy.nodup_preorderBy : ∀ {f x : Nat}, ThreadedBy r ch x → (preorderBy ch f x).Nodup
  | 0, _, _ => List.nodup_nil
  | f + 1, x, h => by
    refine List.nodup_cons.mpr ⟨fun hx => ?_, List.nodup_flatMap.mpr
      ⟨fun c hc => (h.child hc).nodup_preorderBy, (h x (.self x)).1.pairwise_of_forall_ne
        fun c hc c' hc' hne w hw hw' => hne ?_⟩⟩
    · obtain ⟨c, hc, hx⟩ := List.mem_flatMap.mp hx
      exact absurd (((h.child hc).below (reach_of_mem_preorderBy hx)).rank_le hrank)
        (not_le.mpr (hrank _ _ (h.parentOf hc)))
    · exact Below.eq_of_kids hrank (h.parentOf hc) (h.parentOf hc')
        ((h.child hc).below (reach_of_mem_preorderBy hw))
        ((h.child hc').below (reach_of_mem_preorderBy hw'))

/-- The preorder `f` levels deep holds every version less than `f` ranks below `x`. -/
theorem ThreadedBy.mem_preorderBy : ∀ {f x w : Nat}, ThreadedBy r ch x → Reach ch x w →
    rank w < rank x + f → w ∈ preorderBy ch f x
  | 0, _, _, h, hw, hf => absurd ((h.below hw).rank_le hrank) (by omega)
  | f + 1, x, w, h, hw, hf => by
    cases hw with
    | self => exact List.mem_cons_self _ _
    | step hc hcw =>
      have := hrank _ _ (h.parentOf hc)
      exact List.mem_cons_of_mem _ (List.mem_flatMap.mpr
        ⟨_, hc, (h.child hc).mem_preorderBy hcw (by omega)⟩)

end threaded

/-- In a linked table the children lists thread the subtree of every inited version. -/
theorem Linked.threadedBy {r : Registry} (hl : r.Linked) (hn : r.ids.Nodup) {v : Nat}
    {vv : Version} (hv : r.get v = some vv) (hvi : vv.inited = true) : ThreadedBy r r.kids v := by
  have hinit : ∀ {x w}, Reach r.kids x w → ∀ {xv : Version}, r.get x = some xv →
      xv.inited = true → ∃ wv, r.get w = some wv ∧ wv.inited = true := by
    intro x w hw
    induction hw with
    | self => exact fun hx hxi => ⟨_, hx, hxi⟩
    | step hc _ ih =>
      intro _ _ _
      obtain ⟨cv, hcv, hci, -⟩ := mem_kids.mp hc
      exact ih hcv hci
  intro w hw
  obtain ⟨wv, hwv, hwi⟩ := hinit hw hv hvi
  refine ⟨kids_nodup hn w, ⟨wv, hwv, by rw [(hl w wv hwv).1, if_pos hwi]⟩, fun c hc => ?_⟩
  obtain ⟨cv, hcv, hci, hcp⟩ := mem_kids.mp hc
  exact ⟨cv, hcv, hcp, by rw [(hl c cv hcv).2, if_pos hci, hcp, Option.some_bind]⟩

section walk
variable {r₀ : Registry} {ch : Nat → List Nat} {rank : Nat → Nat}

/-- The walk through the subtree of `v` along children lists `ch` that thread it, `f` levels
deep, from any table placed like `r₀`: it takes `dfsCost` steps, numbers the subtree's preorder
from `id + 1` in turn and changes nothing else, and goes on where `v`'s own links say. -/
def SubtreeWalk (r₀ : Registry) (ch : Nat → List Nat) (rank : Nat → Nat) (f : Nat) : Prop :=
  ∀ (v : Nat) (vv : Version) (id N : Nat) (r : Registry), r₀.get v = some vv →
    ThreadedBy r₀ ch v → SameLinks r₀ r → (∀ w, Below r₀ v w → rank w < rank v + f) →
    ∃ r', dfsLoop (N + dfsCost ch f v) (some v) true id r =
        dfsLoop N vv.next.1 vv.next.2 (id + (preorderBy ch f v).length) r' ∧
      SameLinks r₀ r' ∧ (∀ w ∉ preorderBy ch f v, r'.get w = r.get w) ∧
      NumberedFrom r₀ r' (preorderBy ch f v) id ∧ OrderedFrom r' (preorderBy ch f v) id

variable (hrank : ∀ v p, r₀.parentOf v = some p → rank p < rank v)

theorem orders_set {r : Registry} {u w : Version} (hu : r.get w.version = some u) {o x : Nat}
    (ho : w.oOrder = some o) (hx : w.rOrder = some x) : (r.set w).orders w.version = some (o, x) := by
  simp [orders, get_set, hu, ho, hx]

theorem Linked.nextSybling_eq (hl : r₀.Linked) (hn : r₀.ids.Nodup) {p c : Nat} {pre rest : List Nat}
    (hk : r₀.kids p = pre ++ c :: rest) {cv : Version} (hcv : r₀.get c = some cv) :
    cv.nextSybling = rest.head? ∧ cv.parent = some p ∧ cv.inited = true := by
  have hc : c ∈ r₀.kids p := by rw [hk]; simp
  obtain ⟨cv', hcv', hci, hcp⟩ := mem_kids.mp hc
  rw [hcv, Option.some_inj] at hcv'
  subst hcv'
  have hpre : c ∉ pre := by
    have := kids_nodup hn p
    rw [hk, List.nodup_append] at this
    exact fun h => this.2.2 h (List.mem_cons_self _ _)
  refine ⟨?_, hcp, hci⟩
  have := (hl c cv hcv).2
  rwa [if_pos hci, hcp, Option.some_bind, hk, nextIn_append_cons hpre] at this

include hrank in
/-- The walk through a run of siblings, the last of `p`'s children among them: each subtree in
turn, then back up to `p`. -/
theorem dfsLoop_siblings {f p : Nat} (IH : SubtreeWalk r₀ ch rank f) (hp : ThreadedBy r₀ ch p) :
    ∀ (l pre : List Nat) (id N : Nat) (r : Registry), ch p = pre ++ l → l ≠ [] →
      SameLinks r₀ r → (∀ c ∈ l, ∀ w, Below r₀ c w → rank w < rank c + f) →
      ∃ r', dfsLoop (N + (l.map (dfsCost ch f)).sum) l.head? true id r =
          dfsLoop N (some p) false (id + (l.flatMap (preorderBy ch f)).length) r' ∧
        SameLinks r₀ r' ∧ (∀ w ∉ l.flatMap (preorderBy ch f), r'.get w = r.get w) ∧
        NumberedFrom r₀ r' (l.flatMap (preorderBy ch f)) id ∧
        OrderedFrom r' (l.flatMap (preorderBy ch f)) id
  | [], _, _, _, _, _, hne, _, _ => absurd rfl hne
  | c :: rest, pre, id, N, r, hk, _, hsame, hdepth => by
    have hc : c ∈ ch p := by rw [hk]; simp
    obtain ⟨hnd, -, hkid⟩ := hp p (.self p)
    obtain ⟨cv, hcv, hcp, hnext⟩ := hkid c hc
    rw [hk] at hnd
    rw [hk, nextIn_append_cons fun h => (List.nodup_append.mp hnd).2.2 h (List.mem_cons_self _ _)]
      at hnext
    obtain ⟨r1, hrun1, hs1, hf1, hn1, ho1⟩ :=
      IH c cv id (N + (rest.map (dfsCost ch f)).sum) r hcv (hp.child hc) hsame (hdepth c (by simp))
    simp only [List.map_cons, List.sum_cons, List.flatMap_cons, List.length_append,
      List.head?_cons]
    cases rest with
    | nil =>
      have hnx : cv.next = (some p, false) := by simp [Version.next, hnext, hcp]
      simp only [List.map_nil, List.sum_nil, Nat.add_zero, List.flatMap_nil, List.append_nil,
        List.length_nil] at hrun1 ⊢
      exact ⟨r1, by rw [hrun1, hnx], hs1, hf1, hn1, ho1⟩
    | cons c' rest' =>
      have hnx : cv.next = (some c', true) := by simp [Version.next, hnext]
      obtain ⟨r2, hrun2, hs2, hf2, hn2, ho2⟩ := dfsLoop_siblings IH hp (c' :: rest') (pre ++ [c])
        (id + (preorderBy ch f c).length) N r1 (by rw [hk]; simp) (by simp) hs1
        (fun c'' h => hdepth c'' (List.mem_cons_of_mem _ h))
      -- the subtrees of `c` and of its later siblings are apart
      have hsep : ∀ w ∈ preorderBy ch f c, ∀ u ∈ (c' :: rest').flatMap (preorderBy ch f),
          ¬ Below r₀ w u ∧ ¬ Below r₀ u w := by
        intro w hw u hu
        obtain ⟨c'', hc'', hu⟩ := List.mem_flatMap.mp hu
        have hc''p : c'' ∈ ch p := by rw [hk]; simp [hc'']
        have hne : c ≠ c'' := by
          rintro rfl
          exact (List.nodup_cons.mp (List.nodup_append.mp hnd).2.1).1 hc''
        have hcw := (hp.child hc).below (reach_of_mem_preorderBy hw)
        have hcu := (hp.child hc''p).below (reach_of_mem_preorderBy hu)
        have heq : ∀ {w}, Below r₀ c w → Below r₀ c'' w → c = c'' := fun hw hw' =>
          Below.eq_of_kids hrank (hp.parentOf hc) (hp.parentOf hc''p) hw hw'
        exact ⟨fun h => hne (heq (hcw.trans h) hcu), fun h => hne (heq hcw (hcu.trans h))⟩
      have hord1 : ∀ w ∈ preorderBy ch f c, r2.orders w = r1.orders w := fun w hw => by
        simp only [orders]
        rw [hf2 w fun hu => (hsep w hw w hu).1 .self]
      refine ⟨r2, ?_, hs2, fun w hw => ?_, NumberedFrom.append (hn1.congr hord1) hn2 hsep,
        OrderedFrom.append (ho1.congr hord1) ho2⟩
      · rw [show N + (dfsCost ch f c + ((c' :: rest').map (dfsCost ch f)).sum) =
          N + ((c' :: rest').map (dfsCost ch f)).sum + dfsCost ch f c by omega, hrun1, hnx]
        simpa [Nat.add_assoc] using hrun2
      · rw [List.mem_append, not_or] at hw
        rw [hf2 w hw.2, hf1 w hw.1]

include hrank in
/-- The walk through the subtree of a version, at every depth that covers the subtree. -/
theorem dfsLoop_subtree : ∀ f, SubtreeWalk r₀ ch rank f
  | 0 => fun v _ _ _ _ _ _ _ hdepth => absurd (hdepth v .self) (by omega)
  | f + 1 => fun v vv id N r hv ht hsame hdepth => by
    obtain ⟨vr, hvr, hp, hf, hns, -⟩ := hsame.symm.get hv
    have hnext : vr.next = vv.next := by simp [Version.next, hp, hns]
    have hfc : vr.firstChild = (ch v).head? := by
      obtain ⟨-, ⟨wv, hwv, hwf⟩, -⟩ := ht v (.self v)
      rw [hv, Option.some_inj] at hwv
      rw [← hf, hwv, hwf]
    have hvv : vr.version = v := r.version_of_get hvr
    cases hk : ch v with
    | nil =>
      have hcost : dfsCost ch (f + 1) v = 1 := by simp [dfsCost, hk]
      have hpre : preorderBy ch (f + 1) v = [v] := by simp [preorderBy, hk]
      have hord : (r.set { vr with oOrder := some (id + 1), rOrder := some (id + 1) }).orders v =
          some (id + 1, id + 1) := by
        rw [← hvv]
        exact orders_set (by rw [hvv]; exact hvr) rfl rfl
      rw [hcost, hpre, dfsLoop_leaf hvr (by rw [hfc, hk]; rfl), hnext]
      refine ⟨_, rfl, hsame.trans (sameLinks_set_orders hvr _ _), fun w hw => ?_,
        NumberedFrom.cons (fun _ h => by simp at h) hord (fun _ h => by simp at h),
        ⟨⟨_, hord⟩, trivial⟩⟩
      rw [get_set, if_neg (by rw [hvv]; simpa [eq_comm] using hw)]
    | cons c cs =>
      have hcost : dfsCost ch (f + 1) v = 2 + ((c :: cs).map (dfsCost ch f)).sum := by
        simp [dfsCost, hk]
      have hpre : preorderBy ch (f + 1) v = v :: (c :: cs).flatMap (preorderBy ch f) := by
        simp [preorderBy, hk]
      have hs1 : SameLinks r₀ (r.set { vr with oOrder := some (id + 1) }) :=
        hsame.trans (sameLinks_set_orders hvr _ _)
      have hkid : ∀ c' ∈ c :: cs, r₀.parentOf c' = some v := fun c' hc' =>
        ht.parentOf (by rw [hk]; exact hc')
      obtain ⟨r2, hrun2, hs2, hf2, hn2, ho2⟩ := dfsLoop_siblings hrank (dfsLoop_subtree f) ht
        (c :: cs) [] (id + 1) (N + 1) _ hk (by simp) hs1 fun c' hc' w hw => by
          have := hrank _ _ (hkid c' hc')
          have := hdepth w ((Below.of_parentOf (hkid c' hc')).trans hw)
          omega
      -- `v` is not in its children's subtrees
      have hvF : v ∉ (c :: cs).flatMap (preorderBy ch f) := fun h => by
        obtain ⟨c', hc', hv'⟩ := List.mem_flatMap.mp h
        have := hrank _ _ (hkid c' hc')
        exact absurd (((ht.child (hk ▸ hc')).below (reach_of_mem_preorderBy hv')).rank_le hrank)
          (by omega)
      have hr2v : r2.get v = some { vr with oOrder := some (id + 1) } := by
        rw [hf2 v hvF, get_set, if_pos hvv]
        simp [hvr]
      rw [List.head?_cons] at hrun2
      rw [hcost, hpre, show N + (2 + ((c :: cs).map (dfsCost ch f)).sum) =
          N + 1 + ((c :: cs).map (dfsCost ch f)).sum + 1 by omega,
        dfsLoop_down hvr (by rw [hfc, hk]; rfl), hrun2, dfsLoop_up hr2v]
      set F := (c :: cs).flatMap (preorderBy ch f)
      have hord : ∀ w ∈ F, (r2.set
          { vr with oOrder := some (id + 1), rOrder := some (id + 1 + F.length) }).orders w =
          r2.orders w := fun w hw => by
        have hwv : v ≠ w := fun e => hvF (e ▸ hw)
        simp only [orders]
        rw [get_set, if_neg (by simpa [hvv] using hwv)]
      have hordv : (r2.set
          { vr with oOrder := some (id + 1), rOrder := some (id + 1 + F.length) }).orders v =
          some (id + 1, id + 1 + F.length) := by
        rw [← hvv]
        exact orders_set (by rw [hvv]; exact hr2v) rfl rfl
      refine ⟨r2.set { vr with oOrder := some (id + 1), rOrder := some (id + 1 + F.length) }, ?_,
        hs2.trans (sameLinks_set_orders hr2v _ _), fun w hw => ?_, ?_, ⟨⟨_, hordv⟩, ho2.congr hord⟩⟩
      · rw [List.length_cons, ← hnext]
        congr 1
        omega
      · have hwv : v ≠ w := fun e => hw (e ▸ List.mem_cons_self _ _)
        rw [get_set, if_neg (by simpa [hvv] using hwv), hf2 w (fun h => hw (List.mem_cons_of_mem _ h)),
          get_set, if_neg (by simpa [hvv] using hwv)]
      · refine NumberedFrom.cons (hn2.congr hord) hordv fun u hu => ?_
        have hvu : Below r₀ v u :=
          ht.below (reach_of_mem_preorderBy (hpre ▸ List.mem_cons_of_mem _ hu))
        exact ⟨hvu, fun h => hvF (h.antisymm hrank hvu ▸ hu)⟩

end walk

end Registry

/-! ## The walk from the root -/

/-- The version with its orders cleared: what the walk does not change. -/
def Version.sansOrders (u : Version) : Version := { u with oOrder := none, rOrder := none }

namespace Registry

/-- `r'` is `r` with only some versions' orders changed. -/
def OrdersOnly (r r' : Registry) : Prop :=
  r'.initList = r.initList ∧ r'.last = r.last ∧ r'.versionCnt = r.versionCnt ∧ r'.ids = r.ids ∧
    ∀ v, (r'.get v).map Version.sansOrders = (r.get v).map Version.sansOrders

theorem OrdersOnly.refl (r : Registry) : OrdersOnly r r := ⟨rfl, rfl, rfl, rfl, fun _ => rfl⟩

theorem OrdersOnly.trans {r r' r'' : Registry} (h : OrdersOnly r r') (h' : OrdersOnly r' r'') :
    OrdersOnly r r'' :=
  ⟨h'.1.trans h.1, h'.2.1.trans h.2.1, h'.2.2.1.trans h.2.2.1, h'.2.2.2.1.trans h.2.2.2.1,
    fun v => (h'.2.2.2.2 v).trans (h.2.2.2.2 v)⟩

theorem ordersOnly_set {r : Registry} {v : Nat} {u : Version} (hu : r.get v = some u)
    (o x : Option Nat) : OrdersOnly r (r.set { u with oOrder := o, rOrder := x }) := by
  have hv : u.version = v := r.version_of_get hu
  refine ⟨rfl, rfl, rfl, ids_set _, fun y => ?_⟩
  rw [get_set]
  split_ifs with h
  · obtain rfl : v = y := hv ▸ h
    rw [hu]
    rfl
  · rfl

theorem OrdersOnly.sameLinks {r r' : Registry} (h : OrdersOnly r r') : SameLinks r r' := by
  refine ⟨h.2.2.2.1, fun v => ?_⟩
  have := congrArg (Option.map Version.links) (h.2.2.2.2 v)
  simpa [Option.map_map, Function.comp_def, Version.links, Version.sansOrders] using this

/-- The walk changes nothing but orders. -/
theorem dfsLoop_ordersOnly : ∀ {fuel : Nat} {cur : Option Nat} {down : Bool} {id : Nat}
    {r r' : Registry}, dfsLoop fuel cur down id r = some r' → OrdersOnly r r'
  | 0, _, _, _, _, _, h => by simp [dfsLoop] at h
  | _ + 1, none, _, _, _, _, h => by simp only [dfsLoop, Option.some.injEq] at h; exact h ▸ .refl _
  | fuel + 1, some v, down, id, r, r', h => by
    cases hv : r.get v with
    | none => simp [dfsLoop, hv] at h
    | some vv =>
      cases down
      · rw [dfsLoop_up hv] at h
        exact (ordersOnly_set hv _ _).trans (dfsLoop_ordersOnly h)
      · cases hc : vv.firstChild with
        | some c =>
          rw [dfsLoop_down hv hc] at h
          exact (ordersOnly_set hv _ _).trans (dfsLoop_ordersOnly h)
        | none =>
          rw [dfsLoop_leaf hv hc] at h
          exact (ordersOnly_set hv _ _).trans (dfsLoop_ordersOnly h)

theorem exists_rank_bound (l : List Nat) (rank : Nat → Nat) : ∃ F, ∀ w ∈ l, rank w < F := by
  induction l with
  | nil => exact ⟨0, by simp⟩
  | cons a l ih =>
    obtain ⟨F, hF⟩ := ih
    refine ⟨max F (rank a + 1), fun w hw => ?_⟩
    rcases List.mem_cons.mp hw with rfl | hw
    · omega
    · have := hF w hw
      omega

theorem mem_ids_of_below {r : Registry} {x w : Nat} (hx : x ∈ r.ids) (h : Below r x w) :
    w ∈ r.ids := by
  rcases h.cases_bottom with rfl | ⟨p, hp, -⟩
  · exact hx
  · obtain ⟨u, hu, -⟩ := parentOf_eq_some.mp hp
    exact mem_ids_of_get hu

/-- Every version is below the root. -/
theorem Rooted.below_root {r : Registry} (h : r.Rooted) : ∀ {w : Nat}, w ∈ r.ids → Below r 0 w := by
  obtain ⟨rank, hrank⟩ := h.rank
  suffices ∀ n w, rank w = n → w ∈ r.ids → Below r 0 w from fun {w} hw => this _ w rfl hw
  intro n
  induction n using Nat.strong_induction_on with
  | _ n ih =>
    intro w hn hw
    by_cases h0 : w = 0
    · exact h0 ▸ .self
    · obtain ⟨u, hu⟩ := Option.isSome_iff_exists.mp (get_isSome_of_mem_ids hw)
      obtain ⟨p, hp, hps⟩ := h.parent w u hu h0
      have hwp : r.parentOf w = some p := parentOf_eq_some.mpr ⟨u, hu, hp⟩
      exact .child hwp (ih _ (hn ▸ hrank w p hwp) p rfl (mem_ids_iff.mpr hps))

/-- Every version is inited. -/
def AllInited (r : Registry) : Prop := ∀ v u, r.get v = some u → u.inited = true

/-- The walk from the root along children lists `ch` that thread the tree below it, `F` levels
covering it: it runs to its end within the fuel `castle_versions_process` gives it, gives the
versions of the preorder along `ch` the `o_order`s `1, 2, ...` in turn, with intervals that hold
exactly the versions below them, and changes nothing but orders. -/
theorem dfsLoop_from_root {r : Registry} {ch : Nat → List Nat} {rank : Nat → Nat}
    (hrank : ∀ v p, r.parentOf v = some p → rank p < rank v) (ht : ThreadedBy r ch 0)
    {u0 : Version} (h0 : r.get 0 = some u0) (hu0 : u0.parent = none ∧ u0.nextSybling = none)
    (F : Nat) (hF : ∀ w, Below r 0 w → rank w < rank 0 + F) :
    ∃ r', dfsLoop (2 * r.hash.length + 1) (some 0) true 0 r = some r' ∧ OrdersOnly r r' ∧
      NumberedFrom r r' (preorderBy ch F 0) 0 ∧ OrderedFrom r' (preorderBy ch F 0) 0 := by
  have hlen : (preorderBy ch F 0).length ≤ r.hash.length := by
    have := (List.subperm_of_subset (@ThreadedBy.nodup_preorderBy r ch rank hrank F 0 ht) fun w hw =>
      ht.mem_ids (reach_of_mem_preorderBy hw)).length_le
    simpa [ids] using this
  have hcost := dfsCost_le ch F 0
  obtain ⟨r', hrun, -, -, hnum, hord⟩ := dfsLoop_subtree hrank F 0 u0 0
    (2 * r.hash.length - dfsCost ch F 0 + 1) r h0 ht (.refl r) hF
  have hnext : u0.next = (none, false) := by simp [Version.next, hu0.1, hu0.2]
  rw [show 2 * r.hash.length - dfsCost ch F 0 + 1 + dfsCost ch F 0 = 2 * r.hash.length + 1 by omega,
    hnext] at hrun
  exact ⟨r', hrun, dfsLoop_ordersOnly hrun, hnum, hord⟩

/-- The walk from the root of a linked tree of inited versions: it runs to its end within the
fuel `castle_versions_process` gives it, numbers the whole tree in depth-first order from `1`,
and changes nothing but orders. -/
theorem dfsLoop_root {r : Registry} (hr : r.Rooted) (hl : r.Linked) (hi : r.AllInited) :
    ∃ r', dfsLoop (2 * r.hash.length + 1) (some 0) true 0 r = some r' ∧ OrdersOnly r r' ∧
      NumberedFrom r r' r.ids 0 := by
  obtain ⟨rank, hrank⟩ := hr.rank
  obtain ⟨F, hF⟩ := exists_rank_bound r.ids rank
  obtain ⟨u0, h0, hu0p⟩ := hr.root
  have h0ids : 0 ∈ r.ids := mem_ids_of_get h0
  have hnext : u0.nextSybling = none := by
    have := (hl 0 u0 h0).2
    rwa [if_pos (hi 0 u0 h0), hu0p] at this
  obtain ⟨r', hrun, hoo, hnum, -⟩ := dfsLoop_from_root hrank (hl.threadedBy hr.nodup h0 (hi 0 u0 h0))
    h0 ⟨hu0p, hnext⟩ F fun w hw => by have := hF w (mem_ids_of_below h0ids hw); omega
  have hperm : (preorderBy r.kids F 0).Perm r.ids := by
    rw [← preorder_eq_preorderBy]
    exact (List.perm_ext_iff_of_nodup (nodup_preorder hrank hr.nodup F 0) hr.nodup).mpr fun w =>
      ⟨fun hw => mem_ids_of_below h0ids (below_of_mem_preorder hw), fun hw =>
        mem_preorder_of_below hrank hi (hr.below_root hw) (by have := hF w hw; omega)⟩
  refine ⟨r', hrun, hoo, fun w hw => ?_⟩
  obtain ⟨o, x, hw, ho, hox, hx, hbelow⟩ := hnum w (hperm.mem_iff.mpr hw)
  exact ⟨o, x, hw, ho, hox, hperm.length_eq ▸ hx,
    fun u hu => hbelow u (hperm.mem_iff.mpr hu)⟩

theorem OrdersOnly.allInited {r r' : Registry} (h : OrdersOnly r r') (hi : r.AllInited) :
    r'.AllInited := fun v u' hu' => by
  have := h.2.2.2.2 v
  rw [hu'] at this
  obtain ⟨u, hu, he⟩ := Option.map_eq_some'.mp this.symm
  exact (congrArg Version.inited he).symm.trans (hi v u hu)

/-- `castle_versions_process` on a linked tree of inited versions with nothing to thread: it
numbers the whole tree in depth-first order and changes nothing else. -/
theorem castleVersionsProcess_numbers {r : Registry} (hr : r.Rooted) (hl : r.Linked)
    (hi : r.AllInited) (hil : r.initList = []) :
    ∃ r', castleVersionsProcess r = some (r', 0) ∧ OrdersOnly r r' ∧ NumberedFrom r r' r.ids 0 := by
  obtain ⟨u0, h0, hu0p⟩ := hr.root
  obtain ⟨r', hrun, hoo, hnum⟩ := dfsLoop_root hr hl hi
  exact ⟨r', by simp [castleVersionsProcess, hil, processInitLoop, h0, hi 0 u0 h0, hu0p, hrun],
    hoo, hnum⟩

/-- Once the tree is numbered, `castle_version_is_ancestor` is exact: it answers, without
reaching a `BUG_ON`, whether the candidate is on the version's parent chain. -/
theorem castleVersionIsAncestor_numbered {r r' : Registry} (hoo : OrdersOnly r r')
    (hi : r.AllInited) (hnum : NumberedFrom r r' r.ids 0) {c v : Nat} (hc : c ∈ r.ids)
    (hv : v ∈ r.ids) : ∃ b, castleVersionIsAncestor c v r' = some b ∧ (b = true ↔ Below r c v) := by
  obtain ⟨o, x, hoc, -, -, -, hb⟩ := hnum c hc
  obtain ⟨o', x', hov, -⟩ := hnum v hv
  obtain ⟨uc, huc, hco, hcx⟩ := orders_eq_some.mp hoc
  obtain ⟨uv, huv, hvo, -⟩ := orders_eq_some.mp hov
  have hi' := hoo.allInited hi
  refine ⟨decide (o ≤ o' ∧ o' ≤ x), ?_, by rw [decide_eq_true_iff]; exact hb v hv o' x' hov⟩
  simp [castleVersionIsAncestor, huc, huv, hi' c uc huc, hi' v uv huv, hco, hcx, hvo]

/-- Once the versions of `L` carry the `o_order`s `1, 2, ...` in turn, `castle_version_compare`
is the difference of their places in `L`: the `version_t` subtraction does not wrap while `L` is
shorter than `2 ^ 31`. -/
theorem castleVersionCompare_ordered {r r' : Registry} {L : List Nat} (hoo : OrdersOnly r r')
    (hi : r.AllInited) (hord : OrderedFrom r' L 0) (hlen : L.length < 2 ^ 31) {i j : Nat}
    (hiL : i < L.length) (hjL : j < L.length) :
    castleVersionCompare L[i] L[j] r' = some ((i : Int) - j) := by
  obtain ⟨x, hx⟩ := hord.getElem i hiL
  obtain ⟨y, hy⟩ := hord.getElem j hjL
  obtain ⟨ui, hui, hio, -⟩ := orders_eq_some.mp hx
  obtain ⟨uj, huj, hjo, -⟩ := orders_eq_some.mp hy
  have hi' := hoo.allInited hi
  have hsub : (BitVec.ofNat 32 (i + 1) - BitVec.ofNat 32 (j + 1)).toInt = ((i : Int) + 1) - (j + 1) := by
    rw [toInt_sub_ofNat (by omega) (by omega)]
    push_cast
    rfl
  simp only [Nat.zero_add] at hio hjo
  simp only [castleVersionCompare, hui, huj, hi' _ ui hui, hi' _ uj huj, hio, hjo, hsub,
    Option.bind_eq_bind, Option.some_bind, not_true_eq_false, or_self, if_false, Option.pure_def,
    Option.some.injEq]
  omega

end Registry

end Versions
end Castle
