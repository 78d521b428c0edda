import Castle.Versions.Insert

/-!
# The walk of `castle_versions_process` on a tree given by its chains

The depth-first walk of `castle_versions_process` reads nothing but the `first_child`,
`next_sybling` and `parent` pointers.  Here the table is any finite tree rooted at version `0`
as those pointers give it: every version's `first_child`/`next_sybling` chain is a finite list
whose versions have it as parent, and every version is reached from `0` along the chains.  The
chains need not be sorted, nor the versions inited.  On such a table the walk ends within its
fuel and numbers the preorder that visits children in chain order: the `i`-th version gets
`o_order` `i + 1`, and its `r_order` is the largest `o_order` in its subtree
(`dfs_numbers_preorder`).  Parents come before children there, so the depth of a version in the
preorder is a rank that grows along parent pointers (`ChainTree.rank`), which is what the walk
lemmas of `Castle.Versions.Numbering` need.
-/

namespace Castle
namespace Versions
namespace Registry

/-- Modelled from the spec: a finite well-formed version tree whose sibling lists are `ch`.
Version `0` is in the table with no parent and no next sibling; the `first_child`/`next_sybling`
chain of every version is `ch` of it, and has it as every member's parent; every version is
reached from `0` along the chains. -/
structure ChainTree (r : Registry) (ch : Nat → List Nat) : Prop where
  root : ∃ u, r.get 0 = some u ∧ u.parent = none ∧ u.nextSybling = none
  chain : ∀ v u, r.get v = some u → u.firstChild = (ch v).head? ∧ Chain r (ch v) ∧
    ∀ c ∈ ch v, r.parentOf c = some v
  reach : ∀ v ∈ r.ids, Reach ch 0 v

/-- Modelled from the spec: `r'` numbers the versions of `L`, a depth-first order of the tree of
`r`, as the walk of `castle_versions_process` should: the `i`-th version gets `o_order` `i + 1`,
and its `r_order` is the largest `o_order` in its subtree, which is its own exactly for a leaf. -/
def PrePostNumbered (r r' : Registry) (ch : Nat → List Nat) (L : List Nat) : Prop :=
  ∀ i (hi : i < L.length), ∃ x, r'.orders L[i] = some (i + 1, x) ∧
    (∃ u o, Below r L[i] u ∧ r'.orders u = some (x, o)) ∧
    (∀ u o x', Below r L[i] u → r'.orders u = some (o, x') → o ≤ x) ∧
    (ch L[i] = [] ↔ x = i + 1)

/-! ## Chains and preorders -/

section chains
variable {r : Registry} {ch : Nat → List Nat}

theorem Chain.get_of_mem {L : List Nat} {c : Nat} (h : Chain r L) (hc : c ∈ L) :
    ∃ u, r.get c = some u :=
  let ⟨pre, t, e⟩ := List.append_of_mem hc
  let ⟨u, hu, _⟩ := h pre c t e
  ⟨u, hu⟩

/-- A finite chain never comes back to a version it has passed. -/
theorem Chain.nodup : ∀ {L : List Nat}, Chain r L → L.Nodup
  | [], _ => List.nodup_nil
  | y :: t, h => by
    obtain ⟨⟨u, hu, hn⟩, ht⟩ := Chain.cons_iff.mp h
    have htn := ht.nodup
    refine List.nodup_cons.mpr ⟨fun hy => ?_, htn⟩
    obtain ⟨A, B, rfl⟩ := List.append_of_mem hy
    obtain ⟨u', hu', hn'⟩ := ht A y B rfl
    rw [hu, Option.some_inj] at hu'
    subst hu'
    have hhead : (A ++ y :: B).head? = B.head? := hn.symm.trans hn'
    cases A with
    | nil => exact (List.nodup_cons.mp htn).1 (List.mem_of_mem_head? hhead.symm)
    | cons a A =>
      exact (List.nodup_cons.mp htn).1
        (List.mem_append_right _ (List.mem_cons_of_mem _ (List.mem_of_mem_head? hhead.symm)))

end chains

/-! ## The tree the chains give -/

section chainTree
variable {r : Registry} {ch : Nat → List Nat} (h : ChainTree r ch)
include h

theorem ChainTree.get_of_reach {w : Nat} (hw : Reach ch 0 w) : ∃ u, r.get w = some u := by
  obtain ⟨u0, h0, -⟩ := h.root
  suffices ∀ {x}, Reach ch x w → (∃ u, r.get x = some u) → ∃ u, r.get w = some u from
    this hw ⟨u0, h0⟩
  clear hw
  intro x hxw
  induction hxw with
  | self => exact id
  | step hc _ ih =>
    rintro ⟨xv, hxv⟩
    exact ih ((h.chain _ xv hxv).2.1.get_of_mem hc)

/-- A version's parent lists it in its chain. -/
theorem ChainTree.mem_ch {c p : Nat} (hc : r.parentOf c = some p) : c ∈ ch p := by
  obtain ⟨u, hu, -⟩ := parentOf_eq_some.mp hc
  rcases (h.reach c (mem_ids_of_get hu)).cases_bottom with rfl | ⟨q, hq, hcq⟩
  · obtain ⟨u0, h0, hu0p, -⟩ := h.root
    simp [parentOf, h0, hu0p] at hc
  · obtain ⟨qv, hqv⟩ := h.get_of_reach hq
    have hcq' := (h.chain q qv hqv).2.2 c hcq
    rw [hc, Option.some_inj] at hcq'
    exact hcq' ▸ hcq

/-- The chains thread the whole tree. -/
theorem ChainTree.threadedBy : ThreadedBy r ch 0 := fun w hw => by
  obtain ⟨wv, hwv⟩ := h.get_of_reach hw
  obtain ⟨hfc, hchain, hpar⟩ := h.chain w wv hwv
  have hnd := hchain.nodup
  refine ⟨hnd, ⟨wv, hwv, hfc⟩, fun c hc => ?_⟩
  obtain ⟨cv, hcv, hnext⟩ := (chain_iff_nextIn hnd).mp hchain c hc
  obtain ⟨cv', hcv', hcp⟩ := parentOf_eq_some.mp (hpar c hc)
  rw [hcv, Option.some_inj] at hcv'
  exact ⟨cv, hcv, hcv' ▸ hcp, hnext⟩

/-- The first level of the preorder at which a version appears is a rank: it grows along parent
pointers, and a preorder `F` levels deep holds only versions of rank below `F`. -/
theorem ChainTree.rank : ∃ rank : Nat → Nat, (∀ v p, r.parentOf v = some p → rank p < rank v) ∧
    ∀ F w, w ∈ preorderBy ch F 0 → rank w < F := by
  classical
  refine ⟨fun v => if hv : ∃ n, v ∈ preorderBy ch (n + 1) 0 then Nat.find hv else 0,
    fun v p hvp => ?_, fun F w hw => ?_⟩
  · obtain ⟨u, hu, -⟩ := parentOf_eq_some.mp hvp
    have hv := reach_mem_preorderBy (h.reach v (mem_ids_of_get hu))
    rcases mem_preorderBy_succ (Nat.find_spec hv) with rfl | ⟨q, hq, hvq⟩
    · obtain ⟨u0, h0, hu0p, -⟩ := h.root
      simp [parentOf, h0, hu0p] at hvp
    · cases hm : Nat.find hv with
      | zero => rw [hm] at hq; simp [preorderBy] at hq
      | succ m =>
        rw [hm] at hq
        obtain ⟨qv, hqv⟩ := h.get_of_reach (reach_of_mem_preorderBy hq)
        have hqp := (h.chain q qv hqv).2.2 v hvq
        rw [hvp, Option.some_inj] at hqp
        subst hqp
        have hq' : ∃ n, p ∈ preorderBy ch (n + 1) 0 := ⟨m, hq⟩
        simp only [dif_pos hq', dif_pos hv, hm]
        exact Nat.lt_succ_of_le (Nat.find_min' hq' hq)
  · cases F with
    | zero => simp [preorderBy] at hw
    | succ F =>
      have hw' : ∃ n, w ∈ preorderBy ch (n + 1) 0 := ⟨F, hw⟩
      simp only [dif_pos hw']
      exact Nat.lt_succ_of_le (Nat.find_min' hw' hw)

/-- Orders that number the preorder in turn with intervals holding exactly the versions below
are the pre/post numbering. -/
theorem ChainTree.prePostNumbered {r' : Registry} {F : Nat} (hF : ∀ v ∈ r.ids, v ∈ preorderBy ch F 0)
    (hnum : NumberedFrom r r' (preorderBy ch F 0) 0) (hord : OrderedFrom r' (preorderBy ch F 0) 0) :
    PrePostNumbered r r' ch (preorderBy ch F 0) := by
  set L := preorderBy ch F 0
  intro i hi
  obtain ⟨x, hx0⟩ := hord.getElem i hi
  obtain ⟨o, x₁, hw, -, hox, hx, hint⟩ := hnum L[i] (List.getElem_mem hi)
  rw [hx0, Option.some_inj, Prod.mk.injEq] at hw
  obtain ⟨rfl, rfl⟩ := hw
  -- the version numbered `x` is below `L[i]`
  obtain ⟨x', hx'⟩ := hord.getElem (x - 1) (by omega)
  rw [show 0 + (x - 1) + 1 = x by omega] at hx'
  have hbelow : Below r L[i] L[x - 1] := (hint _ (List.getElem_mem _) x x' hx').mp ⟨hox, le_rfl⟩
  rw [Nat.zero_add] at hx0
  have hreach : Reach ch 0 L[i] := reach_of_mem_preorderBy (List.getElem_mem hi)
  have hiL : L[i] ∈ r.ids := ThreadedBy.mem_ids h.threadedBy hreach
  refine ⟨x, hx0, ⟨_, x', hbelow, hx'⟩, fun u o' x'' hu hu' => ?_, ⟨fun hleaf => ?_, fun hxi => ?_⟩⟩
  · exact ((hint u (hF u (mem_ids_of_below hiL hu)) o' x'' hu').mpr hu).2
  · rcases hbelow.cases_top with e | ⟨c, hc, -⟩
    · rw [e, hx0, Option.some_inj, Prod.mk.injEq] at hx'
      exact hx'.1.symm
    · exact absurd (h.mem_ch hc) (by rw [hleaf]; exact List.not_mem_nil c)
  · -- a child would be numbered after `L[i]` inside its interval
    obtain ⟨rank, hrank, -⟩ := h.rank
    refine List.eq_nil_iff_forall_not_mem.mpr fun c hc => ?_
    obtain ⟨cv, hcv, hcp, -⟩ := (h.threadedBy L[i] hreach).2.2 c hc
    have hpc : r.parentOf c = some L[i] := parentOf_eq_some.mpr ⟨cv, hcv, hcp⟩
    obtain ⟨j, hj, rfl⟩ := List.mem_iff_getElem.mp (hF _ (mem_ids_of_get hcv))
    obtain ⟨x'', hc'⟩ := hord.getElem j hj
    have hji := (hint _ (List.getElem_mem hj) _ x'' hc').mpr (Below.of_parentOf hpc)
    obtain rfl : j = i := by omega
    exact absurd (hrank _ _ hpc) (lt_irrefl _)

end chainTree

/-! ## The numbering -/

/-- The walk of `castle_versions_process` on a finite well-formed tree whose sibling lists are
`ch`: it ends within its fuel and changes nothing but orders; some preorder depth holds every
version, and along any such preorder the walk gives the `i`-th version `o_order` `i + 1` and, as
`r_order`, the largest `o_order` in its subtree, its own exactly for a leaf. -/
theorem dfs_numbers_preorder {r : Registry} {ch : Nat → List Nat} (h : ChainTree r ch) :
    ∃ r', dfsLoop (2 * r.hash.length + 1) (some 0) true 0 r = some r' ∧ OrdersOnly r r' ∧
      (∃ F, ∀ v ∈ r.ids, v ∈ preorderBy ch F 0) ∧
      ∀ F, (∀ v ∈ r.ids, v ∈ preorderBy ch F 0) → PrePostNumbered r r' ch (preorderBy ch F 0) := by
  obtain ⟨u0, h0, hu0⟩ := h.root
  obtain ⟨rank, hrank, hlevel⟩ := h.rank
  have hwalk : ∀ F, (∀ v ∈ r.ids, v ∈ preorderBy ch F 0) →
      ∃ r', dfsLoop (2 * r.hash.length + 1) (some 0) true 0 r = some r' ∧ OrdersOnly r r' ∧
        NumberedFrom r r' (preorderBy ch F 0) 0 ∧ OrderedFrom r' (preorderBy ch F 0) 0 :=
    fun F hF => dfsLoop_from_root hrank h.threadedBy h0 hu0 F fun w hw => by
      have := hlevel F w (hF w (mem_ids_of_below (mem_ids_of_get h0) hw))
      omega
  obtain ⟨F₀, hF₀⟩ := exists_rank_bound r.ids rank
  have hcover : ∀ v ∈ r.ids, v ∈ preorderBy ch F₀ 0 := fun v hv =>
    h.threadedBy.mem_preorderBy hrank (h.reach v hv) (by have := hF₀ v hv; omega)
  obtain ⟨r', hrun, hoo, -⟩ := hwalk F₀ hcover
  refine ⟨r', hrun, hoo, ⟨F₀, hcover⟩, fun F hF => ?_⟩
  obtain ⟨r'', hrun', -, hnum, hord⟩ := hwalk F hF
  obtain rfl : r'' = r' := Option.some.inj (hrun'.symm.trans hrun)
  exact h.prePostNumbered hF hnum hord

/-- A root whose chain holds `2` then `5`, not in decreasing order, and `7` below `5`; nothing
numbered yet. -/
def unsortedTree : Registry :=
  ⟨[⟨7, some 5, none, none, none, none, none, 0, true, false, false⟩,
    ⟨5, some 0, some 7, none, none, none, none, 0, true, false, false⟩,
    ⟨2, some 0, none, some 5, none, none, none, 0, true, false, false⟩,
    ⟨0, none, some 2, none, none, none, none, 0, true, false, false⟩], [], some 7, 4⟩

/-- The sibling lists of `unsortedTree`. -/
def unsortedChains : Nat → List Nat
  | 0 => [2, 5]
  | 5 => [7]
  | _ => []

theorem unsortedTree_chainTree : ChainTree unsortedTree unsortedChains := by
  have hchain : ∀ v, Chain unsortedTree (unsortedChains v) := fun v => by
    unfold unsortedChains
    split
    · exact (siblings_eq_some.mp (rfl : siblings unsortedTree 4 (some 2) = some [2, 5])).2.1
    · exact (siblings_eq_some.mp (rfl : siblings unsortedTree 4 (some 7) = some [7])).2.1
    · exact Chain.nil
  refine ⟨⟨_, rfl, rfl, rfl⟩, fun v u hu => ?_, fun v hv => ?_⟩
  · have hmem := List.mem_of_find?_eq_some hu
    have hv := unsortedTree.version_of_get hu
    simp only [unsortedTree, List.mem_cons, List.mem_singleton, List.not_mem_nil, or_false] at hmem
    rcases hmem with rfl | rfl | rfl | rfl <;> subst hv <;> exact ⟨rfl, hchain _, by decide⟩
  · simp only [ids, unsortedTree, List.map_cons, List.map_nil, List.mem_cons, List.mem_singleton,
      List.not_mem_nil, or_false] at hv
    rcases hv with rfl | rfl | rfl | rfl
    · exact .step (show 5 ∈ unsortedChains 0 by decide) (.step (by decide) (.self 7))
    · exact .step (show 5 ∈ unsortedChains 0 by decide) (.self 5)
    · exact .step (show 2 ∈ unsortedChains 0 by decide) (.self 2)
    · exact .self 0

theorem dfs_numbers_preorder_example :
    ∃ r', dfsLoop (2 * unsortedTree.hash.length + 1) (some 0) true 0 unsortedTree = some r' ∧
      OrdersOnly unsortedTree r' ∧ (∃ F, ∀ v ∈ unsortedTree.ids, v ∈ preorderBy unsortedChains F 0) ∧
      ∀ F, (∀ v ∈ unsortedTree.ids, v ∈ preorderBy unsortedChains F 0) →
        PrePostNumbered unsortedTree r' unsortedChains (preorderBy unsortedChains F 0) :=
  dfs_numbers_preorder unsortedTree_chainTree

end Registry
end Versions
end Castle
