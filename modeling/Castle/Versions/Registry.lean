import Mathlib

/-!
# The version registry

`castle_versions.c` keeps every version in a hash table.  A version is added uninited, on the
init list, with the id of its parent; `castle_versions_process` threads the versions of the
init list under their parents (each parent's children in a sibling list of decreasing ids,
after the snapshot and clone checks) and numbers the tree in one depth-first walk: `o_order`
on the way down, `r_order` on the way up.  `castle_version_is_ancestor` compares these numbers.

The table is modelled by the list of its versions, most recently added first, each pointer by
the id of the version it points to.  Every pointer walk of the code (the sibling walks, the
walk down to a leaf in `castle_version_tree_delete`, the depth-first walk, the init-list loop)
is run on fuel that suffices on a well-formed table; `none` is a `BUG`, a dereference of `NULL`
or of a version not in the table, or the fuel running out, which the code would not survive
either.  Allocation, sysfs and events are external and assumed to succeed.

`castle_versions_zero_init` adds version `0` inited but runs no processing: its `o_order` and
`r_order` stay `INVAL_VERSION` until a later call of `castle_versions_process`
(`castleVersionsZeroInit_orders`), which a refused `castle_version_new` also runs
(`version_new_refused_renumbers`).  `castle_version_tree_delete` of an attached version, or of
one without a parent such as version `0`, never returns (`tree_delete_undeletable_bug`).
-/

namespace Castle
namespace Versions

/-! ## State -/

/-- A `struct castle_version`.  `parent` is the union of `parent_v` (before the version is
inited) and `parent` (after): the id of the parent, `none` for a `NULL` pointer.  `none` in
`oOrder`, `rOrder` is `INVAL_VERSION`, in `daId` `INVAL_DA`. -/
structure Version where
  version : Nat
  parent : Option Nat
  firstChild : Option Nat
  nextSybling : Option Nat
  oOrder : Option Nat
  rOrder : Option Nat
  daId : Option Nat
  size : Nat
  inited : Bool
  attached : Bool
  snap : Bool
deriving DecidableEq, Repr

/-- The registry's state: `castle_versions_hash` (most recently added first),
`castle_versions_init_list` (front first), `castle_versions_last` (`none` is `INVAL_VERSION`)
and how many times `castle_version_add` has incremented its `atomic_t version_cnt`, which holds
`atomicValue versionCnt`. -/
structure Registry where
  hash : List Version
  initList : List Nat
  last : Option Nat
  versionCnt : Nat
deriving DecidableEq, Repr

namespace Registry

/-- `castle_versions_hash_get`: the most recently added version with this id. -/
def get (r : Registry) (id : Nat) : Option Version := r.hash.find? (·.version = id)

/-- Writes a version back over the one with its id. -/
def set (r : Registry) (v : Version) : Registry :=
  { r with hash := r.hash.map fun w => if w.version = v.version then v else w }

/-- Changes the version with id `id`, if there is one. -/
def modify (r : Registry) (id : Nat) (f : Version → Version) : Registry :=
  match r.get id with
  | some v => r.set (f v)
  | none => r

/-- `__castle_versions_hash_remove`. -/
def remove (r : Registry) (id : Nat) : Registry :=
  { r with hash := r.hash.eraseP (·.version = id) }

section lemmas

variable (r : Registry)

/-- Writing a version back changes what `get` finds for its id only. -/
theorem get_set (w : Version) (y : Nat) :
    (r.set w).get y = if w.version = y then (r.get y).map fun _ => w else r.get y := by
  unfold get set
  dsimp only
  induction r.hash with
  | nil => split_ifs <;> rfl
  | cons u us ih =>
    simp only [List.map_cons, List.find?_cons]
    by_cases hu : u.version = y
    · by_cases hw : w.version = y
      · simp [hu, hw]
      · simp [hu, hw, Ne.symm hw]
    · by_cases huw : u.version = w.version
      · by_cases hw : w.version = y
        · omega
        · simp [hu, huw, hw, ih]
      · simp [hu, huw, ih]

theorem version_of_get {y : Nat} {u : Version} (h : r.get y = some u) : u.version = y := by
  simpa using List.find?_some h

theorem get_remove_of_ne {x y : Nat} (h : x ≠ y) : (r.remove x).get y = r.get y := by
  unfold get remove
  dsimp only
  induction r.hash with
  | nil => rfl
  | cons u us ih =>
    by_cases hu : u.version = x
    · have : ¬ u.version = y := by omega
      simp [List.eraseP_cons, hu, List.find?_cons, h]
    · simp [List.eraseP_cons, hu, List.find?_cons, ih]

/-- Changing the version with id `id`, its id kept, changes what `get` finds for `id` only. -/
theorem get_modify {id : Nat} {f : Version → Version} (hf : ∀ u, (f u).version = u.version)
    (y : Nat) : (r.modify id f).get y = if id = y then (r.get y).map f else r.get y := by
  unfold modify
  cases h : r.get id with
  | none =>
    split_ifs with hy
    · subst hy; simp [h]
    · rfl
  | some u =>
    rw [get_set, hf, r.version_of_get h]
    split_ifs with hy
    · subst hy; simp [h]
    · rfl

end lemmas

end Registry

/-- The state `castle_versions_init` leaves: an empty table, `castle_versions_last` invalid. -/
def freshRegistry : Registry := ⟨[], [], none, 0⟩

/-- Fuel for a walk along pointers: a walk in a well-formed table visits each version at most
once. -/
def walkFuel (r : Registry) : Nat := r.hash.length + 1

/-! ## Adding versions -/

/-- The `int` an `atomic_t` holds once it has been incremented `n` times from `0`: `n` modulo
`2 ^ 32` read in two's complement, so that it wraps from `2 ^ 31 - 1` to `-2 ^ 31`. -/
def atomicValue (n : Nat) : Int := (BitVec.ofNat 32 n).toInt

/-- Before `2 ^ 31` increments the counter has not wrapped. -/
theorem atomicValue_of_lt {n : Nat} (h : n < 2 ^ 31) : atomicValue n = n := by
  rw [atomicValue, BitVec.toInt_eq_toNat_cond, BitVec.toNat_ofNat]
  split <;> omega

/-- `castle_version_add`.  Version `0` is inited at once; any other goes on the front of the
init list.  The counter counts every call, and a call fails (`none`) when `atomic_inc_return`
gives more than `900`. -/
def castleVersionAdd (version parent : Nat) (daId : Option Nat) (size : Nat) (r : Registry) :
    Registry × Option Nat :=
  let r := { r with versionCnt := r.versionCnt + 1 }
  if atomicValue r.versionCnt > 900 then (r, none) else
  let v : Version :=
    { version, parent := some parent, firstChild := none, nextSybling := none, oOrder := none,
      rOrder := none, daId, size, inited := false, attached := false, snap := false }
  if version = 0 then
    ({ r with hash := { v with parent := none, inited := true } :: r.hash }, some version)
  else
    ({ r with hash := v :: r.hash, initList := version :: r.initList }, some version)

/-- The sibling walk of `castle_versions_insert`: from sibling `sib`, reached through `prev`
(`none`: through the parent's `first_child`), the first sibling whose id is not above `vId`,
and the sibling before it. -/
def insertPos (r : Registry) (vId : Nat) : Nat → Option Nat → Option Nat →
    Option (Option Nat × Option Nat)
  | 0, _, _ => none
  | _ + 1, prev, none => some (prev, none)
  | fuel + 1, prev, some s =>
    (r.get s).bind fun sv =>
    if s > vId then insertPos r vId fuel (some s) sv.nextSybling else some (prev, some s)

/-- `castle_versions_insert(p, v)`: `v` goes under `p`, in front of the first sibling whose id
is not above its own. -/
def castleVersionsInsert (pId vId : Nat) (r : Registry) : Option Registry := do
  let p ← r.get pId
  let r := r.modify vId fun v => { v with parent := some pId }
  let (prev, sib) ← insertPos r vId (walkFuel r) none p.firstChild
  let r := r.modify vId fun v => { v with nextSybling := sib }
  match prev with
  | none => some (r.modify pId fun p => { p with firstChild := some vId })
  | some q => some (r.modify q fun q => { q with nextSybling := some vId })

/-! ## Processing -/

/-- The init-list loop of `castle_versions_process`, `fuel` rounds, with the error so far.
`cur = some v` is a round at `process_version` with `v` (after a `goto`), `none` a round at the
head of the loop. -/
def processInitLoop : Nat → Registry → Int → Option Nat → Option (Registry × Int)
  | 0, _, _, _ => none
  | fuel + 1, r, err, none =>
    match r.initList with
    | [] => some (r, err)
    | v :: _ => processInitLoop fuel r err (some v)
  | fuel + 1, r, err, some v =>
    if v ∉ r.initList then none else
    let r := { r with initList := r.initList.erase v }
    (r.get v).bind fun vv =>
    if vv.inited then none else
    vv.parent.bind fun pId =>
    (r.get pId).bind fun p =>
    if vv.snap ∧ p.firstChild.isSome then processInitLoop fuel r (-1) none
    else if ¬ vv.snap ∧ p.attached ∧ p.firstChild.isNone then processInitLoop fuel r (-2) none
    else if ¬ p.inited then
      processInitLoop fuel { r with initList := v :: r.initList } err (some pId)
    else
      (castleVersionsInsert pId v r).bind fun r =>
      processInitLoop fuel (r.modify v fun v => { v with inited := true }) err none

/-- The depth-first walk of `castle_versions_process` at version `v` (`none`: done), going down
when `childrenFirst`, with `id` numbers given out so far. -/
def dfsLoop : Nat → Option Nat → Bool → Nat → Registry → Option Registry
  | 0, _, _, _, _ => none
  | _ + 1, none, _, _, r => some r
  | fuel + 1, some v, childrenFirst, id, r =>
    (r.get v).bind fun vv =>
    if childrenFirst then
      let vv := { vv with oOrder := some (id + 1) }
      let vv := if vv.firstChild.isNone then { vv with rOrder := some (id + 1) } else vv
      match vv.firstChild, vv.nextSybling with
      | some c, _ => dfsLoop fuel (some c) true (id + 1) (r.set vv)
      | none, some s => dfsLoop fuel (some s) true (id + 1) (r.set vv)
      | none, none => dfsLoop fuel vv.parent false (id + 1) (r.set vv)
    else
      let vv := { vv with rOrder := some id }
      match vv.nextSybling with
      | some s => dfsLoop fuel (some s) true id (r.set vv)
      | none => dfsLoop fuel vv.parent false id (r.set vv)

/-- `castle_versions_process`: threads the init list into the tree, then numbers the tree from
version `0`, which must be inited and have no parent.  Returns the error code (`-1`: a
snapshot refused, `-2`: a clone refused).  Each round of the init loop but the gotos removes a
version from the list, and a goto chain is no longer than the list. -/
def castleVersionsProcess (r : Registry) : Option (Registry × Int) := do
  let (r, err) ← processInitLoop ((r.initList.length + 1) * (r.initList.length + 1) + 1) r 0 none
  let root ← r.get 0
  if ¬ root.inited ∨ root.parent.isSome then none
  let r ← dfsLoop (2 * r.hash.length + 1) (some 0) true 0 r
  some (r, err)

/-! ## The public operations -/

/-- `INVAL_VERSION`, the `version_t` `-1`, as a number. -/
def invalVersion : Nat := 2 ^ 32 - 1

/-- `castle_version_new` (through `castle_version_new_create`): the new version's id, or `none`
(`INVAL_VERSION`) when the parent is unknown, the counter is past `900` or processing refused
the version.  The outer `none` is a `BUG`: of `castle_versions_last` invalid before or after its
increment, or of two `da_id`s. -/
def castleVersionNew (snapOrClone : Bool) (parent : Nat) (daId : Option Nat) (size : Nat)
    (r : Registry) : Option (Registry × Option Nat) :=
  match r.get parent with
  | none => some (r, none)
  | some p =>
    match r.last with
    | none => none
    | some last =>
      let version := last + 1
      if version = invalVersion then none else
      let r := { r with last := some version }
      if daId.isSome ∧ p.daId.isSome then none else
      let daId := if daId.isNone then p.daId else daId
      match castleVersionAdd version parent daId size r with
      | (r, none) => some (r, none)
      | (r, some _) =>
        let r := r.modify version fun v =>
          { v with size := if p.size ≠ 0 then p.size else v.size, snap := snapOrClone }
        (castleVersionsProcess r).bind fun (r, _) =>
        (r.get version).bind fun v =>
        if v.inited then some (r, some version) else some (r.remove version, none)

/-- `castle_version_attach`: `0`, or `-EINVAL` (unknown version), `-EAGAIN` (already
attached). -/
def castleVersionAttach (version : Nat) (r : Registry) : Registry × Int :=
  match r.get version with
  | none => (r, -22)
  | some v =>
    if v.attached then (r, -11) else (r.set { v with attached := true }, 0)

/-- `castle_version_detach`; `none` is its `BUG_ON` (unknown or not attached). -/
def castleVersionDetach (version : Nat) (r : Registry) : Option Registry :=
  (r.get version).bind fun v =>
  if v.attached then some (r.set { v with attached := false }) else none

/-- The loop of `castle_versions_drop(v)` over the sibling list of `v`'s parent `pId`, unlinking
`v` (whose `next_sybling` is `vNext`). -/
def dropWalk (vId pId : Nat) (vNext : Option Nat) : Nat → Option Nat → Option Nat → Registry →
    Option Registry
  | 0, _, _, _ => none
  | _ + 1, _, none, r => some r
  | fuel + 1, prev, some s, r =>
    let r := if s = vId then
        match prev with
        | some q => r.modify q fun q => { q with nextSybling := vNext }
        | none => r.modify pId fun p => { p with firstChild := vNext }
      else r
    (r.get s).bind fun sv => dropWalk vId pId vNext fuel (some s) sv.nextSybling r

/-- `castle_versions_drop`: unlinks `v` from its parent's sibling list and clears its links;
`none` when `v` has no parent (a `NULL` dereference). -/
def castleVersionsDrop (vId : Nat) (r : Registry) : Option Registry := do
  let v ← r.get vId
  let pId ← v.parent
  let p ← r.get pId
  let r ← dropWalk vId pId v.nextSybling (walkFuel r) none p.firstChild r
  some (r.modify vId fun v => { v with nextSybling := none, parent := none })

/-- `castle_version_delete`: drops and removes an inited, detached version; returns its parent.
`none` is a `BUG_ON` or a crash in `castle_versions_drop`. -/
def castleVersionDelete (vId : Nat) (r : Registry) : Option (Registry × Option Nat) := do
  let v ← r.get vId
  if v.attached ∨ ¬ v.inited then none
  let r ← castleVersionsDrop vId r
  some (r.remove vId, v.parent)

/-- The loop of `castle_version_tree_delete` from `cur`: deletes leaves, walking down first
children, until `version` itself is deleted. -/
def treeDeleteLoop (version : Nat) : Nat → Nat → Registry → Option (Registry × Int)
  | 0, _, _ => none
  | fuel + 1, cur, r =>
    (r.get cur).bind fun c =>
    match c.firstChild with
    | some child => treeDeleteLoop version fuel child r
    | none =>
      (castleVersionDelete cur r).bind fun (r, parent) =>
      match parent with
      | none => some (r, -22)
      | some parent => if cur = version then some (r, 0) else treeDeleteLoop version fuel parent r

/-- `castle_version_tree_delete`: deletes a version and the subtree under it, then processes.
`-EINVAL` for an unknown version (state unchanged) and where the code leaves without
processing. -/
def castleVersionTreeDelete (version : Nat) (r : Registry) : Option (Registry × Int) :=
  match r.get version with
  | none => some (r, -22)
  | some v =>
    if ¬ v.inited then none else
    (treeDeleteLoop version (2 * r.hash.length + 1) version r).bind fun (r, ret) =>
    if ret ≠ 0 then some (r, ret) else
    (castleVersionsProcess r).map fun (r, _) => (r, 0)

/-- `castle_version_is_ancestor(candidate, version)`; `none` is one of its `BUG_ON`s. -/
def castleVersionIsAncestor (candidate version : Nat) (r : Registry) : Option Bool := do
  let v ← r.get version
  let c ← r.get candidate
  if ¬ v.inited ∨ ¬ c.inited then none
  let vo ← v.oOrder
  let co ← c.oOrder
  let cr ← c.rOrder
  some (decide (co ≤ vo ∧ vo ≤ cr))

/-- `castle_version_compare`: `v1->o_order - v2->o_order`, a difference of 32-bit unsigned
`version_t`s converted to `int`; `none` is a `BUG_ON`. -/
def castleVersionCompare (version1 version2 : Nat) (r : Registry) : Option Int := do
  let v1 ← r.get version1
  let v2 ← r.get version2
  if ¬ v1.inited ∨ ¬ v2.inited then none
  let o1 ← v1.oOrder
  let o2 ← v2.oOrder
  some (BitVec.ofNat 32 o1 - BitVec.ofNat 32 o2).toInt

/-- Below `2 ^ 31` the `version_t` difference converted to `int` is the difference itself. -/
theorem toInt_sub_ofNat {a b : Nat} (ha : a < 2 ^ 31) (hb : b < 2 ^ 31) :
    (BitVec.ofNat 32 a - BitVec.ofNat 32 b).toInt = (a : Int) - b := by
  rw [BitVec.toInt_eq_toNat_cond, BitVec.toNat_sub, BitVec.toNat_ofNat, BitVec.toNat_ofNat]
  split <;> omega

/-- `castle_version_read`: da id, size, parent id (`0` for none) and whether the version is a
leaf; `none` is `-EINVAL`. -/
def castleVersionRead (version : Nat) (r : Registry) : Option (Option Nat × Nat × Nat × Bool) :=
  (r.get version).map fun v => (v.daId, v.size, v.parent.getD 0, v.firstChild.isNone)

/-- `castle_version_da_id_get`; `none` is a `BUG_ON`. -/
def castleVersionDaIdGet (version : Nat) (r : Registry) : Option (Option Nat) :=
  (r.get version).bind fun v => if v.inited then some v.daId else none

/-- `castle_version_max_get`: `castle_versions_last + 1`, wrapping from `INVAL_VERSION` to
`0`. -/
def castleVersionMaxGet (r : Registry) : Nat := (r.last.map (· + 1)).getD 0

/-- `castle_versions_zero_init`: adds version `0`; `-1` if that fails. -/
def castleVersionsZeroInit (r : Registry) : Registry × Int :=
  match castleVersionAdd 0 0 none 0 r with
  | (r, none) => (r, -1)
  | (r, some v) => ({ r with last := some v }, 0)

/-! ## Persistence -/

/-- A `struct castle_vlist_entry` of the metadata store. -/
structure VlistEntry where
  versionNr : Nat
  parent : Nat
  size : Nat
  daId : Option Nat
deriving DecidableEq, Repr

/-- `castle_version_writeback` over the table (`castle_versions_writeback`): one entry per
version, the parent `0` where it has none. -/
def castleVersionsWriteback (r : Registry) : List VlistEntry :=
  r.hash.map fun v => ⟨v.version, v.parent.getD 0, v.size, v.daId⟩

/-- The loop of `castle_versions_read` over the entries the store returns, in the order it
returns them: adds each, keeping `castle_versions_last` the largest id; `-ENOMEM` where an add
fails. -/
def readLoop : List VlistEntry → Registry → Registry × Int
  | [], r => (r, 0)
  | e :: es, r =>
    match castleVersionAdd e.versionNr e.parent e.daId e.size r with
    | (r, none) => (r, -12)
    | (r, some v) =>
      let last := match r.last with
        | none => some v
        | some last => if v > last then some v else some last
      readLoop es { r with last }

/-- `castle_versions_read`: adds the stored versions, then processes. -/
def castleVersionsRead (entries : List VlistEntry) (r : Registry) : Option (Registry × Int) :=
  match readLoop entries r with
  | (r, 0) => castleVersionsProcess r
  | (r, err) => some (r, err)

/-! ## Well-formed registries -/

/-- The ids on a sibling list from `sib`, following `next_sybling`; `none` at a dangling pointer
or when the list is longer than the fuel. -/
def siblings (r : Registry) : Nat → Option Nat → Option (List Nat)
  | 0, _ => none
  | _ + 1, none => some []
  | fuel + 1, some s => (r.get s).bind fun sv => (siblings r fuel sv.nextSybling).map (s :: ·)

/-- The parent chain from `v` reaches version `0` within `fuel` steps. -/
def reachesRoot (r : Registry) : Nat → Nat → Bool
  | 0, _ => false
  | fuel + 1, v =>
    v = 0 || match (r.get v).bind (·.parent) with
      | some p => reachesRoot r fuel p
      | none => false

/-- The ids of the versions whose parent is `p`. -/
def childIds (r : Registry) (p : Nat) : List Nat :=
  (r.hash.filter fun v => v.parent = some p).map (·.version)

/-- The sibling list from `p`'s first child is `p`'s children in decreasing id order. -/
def siblingsOk (r : Registry) (p : Version) : Bool :=
  match siblings r (walkFuel r) p.firstChild with
  | some l => decide (l.Sorted (· > ·)) && decide (l.Perm (childIds r p.version))
  | none => false

/-- The version is numbered, `o_order ≤ r_order`. -/
def ordersOk (v : Version) : Bool :=
  match v.oOrder, v.rOrder with
  | some o, some x => decide (o ≤ x)
  | _, _ => false

/-- The registry is a well-formed tree: ids unique, every version inited, version `0` the root
with no parent and no sibling, every parent chain reaching it, each sibling list the children of
its parent in decreasing id order, and every version numbered with `o_order ≤ r_order`. -/
structure TreeWF (r : Registry) : Prop where
  nodup : (r.hash.map (·.version)).Nodup
  inited : ∀ v ∈ r.hash, v.inited = true
  root : (r.get 0).any fun v0 => v0.parent.isNone && v0.nextSybling.isNone
  parentChain : ∀ v ∈ r.hash, reachesRoot r (walkFuel r) v.version = true
  children : ∀ p ∈ r.hash, siblingsOk r p = true
  orders : ∀ v ∈ r.hash, ordersOk v = true

instance (r : Registry) : Decidable (TreeWF r) :=
  decidable_of_iff (_ ∧ _ ∧ _ ∧ _ ∧ _ ∧ _)
    ⟨fun ⟨a, b, c, d, e, f⟩ => ⟨a, b, c, d, e, f⟩, fun ⟨a, b, c, d, e, f⟩ => ⟨a, b, c, d, e, f⟩⟩

/-! ## The registry after `castle_versions_zero_init` -/

/-- Version `0` as `castle_versions_zero_init` leaves it: inited, but with `o_order` and
`r_order` still `INVAL_VERSION`. -/
theorem castleVersionsZeroInit_orders :
    ((castleVersionsZeroInit freshRegistry).1.get 0).map (fun v => (v.inited, v.oOrder, v.rOrder)) =
      some (true, none, none) := by
  decide

/-- After `castle_versions_zero_init`, and after attaching and detaching version `0`,
`castle_version_is_ancestor(0, 0)` reaches its `BUG_ON` on the invalid `o_order`; processing
the registry once makes it return `1`. -/
theorem zero_init_is_ancestor_bug :
    (castleVersionsZeroInit freshRegistry).2 = 0 ∧
    castleVersionIsAncestor 0 0 (castleVersionsZeroInit freshRegistry).1 = none ∧
    ((castleVersionDetach 0 (castleVersionAttach 0 (castleVersionsZeroInit freshRegistry).1).1).bind
      fun r => castleVersionIsAncestor 0 0 r) = none ∧
    ((castleVersionsProcess (castleVersionsZeroInit freshRegistry).1).bind
      fun p => castleVersionIsAncestor 0 0 p.1) = some true := by
  decide

/-- The registry `castle_versions_zero_init` leaves is not a well-formed tree, for its root
alone: processing it once makes it one. -/
theorem zero_init_tree_unnumbered :
    ¬ TreeWF (castleVersionsZeroInit freshRegistry).1 ∧
    ((castleVersionsProcess (castleVersionsZeroInit freshRegistry).1).map
      fun p => decide (TreeWF p.1)) = some true := by
  decide

/-- Writing back the registry `castle_versions_zero_init` leaves and reading it into a fresh
registry succeeds, with the same ids, parents, da ids, sizes and `castle_versions_last`, but
numbers version `0` `(1, 1)` where the original has `INVAL_VERSION`. -/
theorem zero_init_read_renumbers :
    ∃ r, castleVersionsRead (castleVersionsWriteback (castleVersionsZeroInit freshRegistry).1)
        freshRegistry = some (r, 0) ∧
      r.last = (castleVersionsZeroInit freshRegistry).1.last ∧
      castleVersionsWriteback r = castleVersionsWriteback (castleVersionsZeroInit freshRegistry).1 ∧
      (r.get 0).map (fun v => (v.oOrder, v.rOrder)) = some (some 1, some 1) ∧
      ((castleVersionsZeroInit freshRegistry).1.get 0).map (fun v => (v.oOrder, v.rOrder)) =
        some (none, none) :=
  ⟨_, rfl, by decide, by decide, by decide, by decide⟩

/-- After `castle_versions_zero_init` and `castle_version_attach(0)`, `castle_version_new` of a
clone of version `0` is refused (`0` is attached and a leaf) and returns `INVAL_VERSION`; but
the processing it ran numbers version `0`, whose `o_order` and `r_order` go from
`INVAL_VERSION` to `1`. -/
theorem version_new_refused_renumbers :
    ∃ r r', castleVersionAttach 0 (castleVersionsZeroInit freshRegistry).1 = (r, 0) ∧
      castleVersionNew false 0 none 0 r = some (r', none) ∧
      (r.get 0).map (fun v => (v.oOrder, v.rOrder)) = some (none, none) ∧
      (r'.get 0).map (fun v => (v.oOrder, v.rOrder)) = some (some 1, some 1) :=
  ⟨_, _, rfl, rfl, rfl, rfl⟩


/-! ## Subtrees that cannot be deleted

`castle_version_tree_delete` deletes the leaves it walks down to, one `castle_version_delete`
at a time, and returns once it has deleted the version it was asked to.  `castle_version_delete`
stops at its `BUG_ON` on an attached version, and `castle_versions_drop` dereferences the
parent, so a version that is attached or has no parent is never deleted, and the walk never
returns; on the way it keeps the attached flag and the parent of every version it does not
delete. -/

/-- What tree deletion leaves alone in the versions it does not delete: the attached flag and the
parent. -/
def Version.pinned (u : Version) : Bool × Option Nat := (u.attached, u.parent)

theorem Registry.pinned_modify (r : Registry) {f : Version → Version}
    (hf : ∀ u, (f u).version = u.version) (hp : ∀ u, (f u).pinned = u.pinned) (id y : Nat) :
    ((r.modify id f).get y).map Version.pinned = (r.get y).map Version.pinned := by
  rw [r.get_modify hf]
  split_ifs
  · rw [Option.map_map]; congr 1; funext u; exact hp u
  · rfl

theorem dropWalk_pinned {vId pId : Nat} {vNext : Option Nat} :
    ∀ {fuel : Nat} {prev s : Option Nat} {r r' : Registry}, dropWalk vId pId vNext fuel prev s r = some r' →
      ∀ y, (r'.get y).map Version.pinned = (r.get y).map Version.pinned
  | 0, _, _, _, _, h => by simp [dropWalk] at h
  | _ + 1, _, none, _, _, h => by simp [dropWalk] at h; simp [h]
  | fuel + 1, prev, some s, r, r', h => fun y => by
    simp only [dropWalk, Option.bind_eq_some] at h
    obtain ⟨sv, -, h⟩ := h
    rw [dropWalk_pinned h y]
    split_ifs
    · cases prev <;> dsimp only <;> apply Registry.pinned_modify <;> intro _ <;> rfl
    · rfl

theorem castleVersionsDrop_pinned {vId : Nat} {r r' : Registry} (h : castleVersionsDrop vId r = some r')
    {y : Nat} (hy : vId ≠ y) : (r'.get y).map Version.pinned = (r.get y).map Version.pinned := by
  simp only [castleVersionsDrop, Option.bind_eq_bind, Option.bind_eq_some, Option.some.injEq] at h
  obtain ⟨v, -, pId, -, p, -, r1, hwalk, rfl⟩ := h
  rw [Registry.get_modify, if_neg hy, dropWalk_pinned hwalk]
  intro _; rfl

/-- `castle_version_delete` deletes only a detached version with a parent, returns that parent,
and leaves the other versions' attached flags and parents. -/
theorem castleVersionDelete_some {c : Nat} {r r' : Registry} {parent : Option Nat}
    (h : castleVersionDelete c r = some (r', parent)) :
    (∃ u, r.get c = some u ∧ u.attached = false ∧ u.parent = parent ∧ parent.isSome) ∧
      ∀ y, c ≠ y → (r'.get y).map Version.pinned = (r.get y).map Version.pinned := by
  simp only [castleVersionDelete, Option.bind_eq_bind, Option.bind_eq_some] at h
  obtain ⟨u, hu, h⟩ := h
  split at h
  · simp at h
  rename_i hflags
  simp only [pure, Option.some_bind, Option.bind_eq_some, Option.some.injEq, Prod.mk.injEq] at h
  obtain ⟨r1, hdrop, rfl, rfl⟩ := h
  refine ⟨⟨u, hu, by simp_all, rfl, ?_⟩, fun y hy => ?_⟩
  · simp only [castleVersionsDrop, hu, Option.bind_eq_bind, Option.some_bind] at hdrop
    cases hp : u.parent <;> simp_all
  · rw [Registry.get_remove_of_ne _ hy, castleVersionsDrop_pinned hdrop hy]

/-- Version `x` is registered and `castle_version_delete` cannot delete it: it is attached, or
has no parent for `castle_versions_drop` to unlink it from. -/
def Undeletable (r : Registry) (x : Nat) : Prop :=
  ∃ u, r.get x = some u ∧ (u.attached = true ∨ u.parent = none)

theorem Undeletable.of_pinned {r r' : Registry} {x : Nat} (h : Undeletable r x)
    (hx : (r'.get x).map Version.pinned = (r.get x).map Version.pinned) : Undeletable r' x := by
  obtain ⟨u, hu, hflags⟩ := h
  rw [hu] at hx
  obtain ⟨u', hu', hp⟩ := Option.map_eq_some'.mp hx
  simp only [Version.pinned, Prod.mk.injEq] at hp
  exact ⟨u', hu', by rw [hp.1, hp.2]; exact hflags⟩

/-- The deletion loop never deletes an undeletable `version`, so it never returns: it deletes the
leaves it walks down to until it stops at a `BUG_ON` or a `NULL` dereference. -/
theorem treeDeleteLoop_undeletable {version : Nat} :
    ∀ {fuel : Nat} (cur : Nat) {r : Registry}, Undeletable r version →
      treeDeleteLoop version fuel cur r = none
  | 0, _, _, _ => rfl
  | fuel + 1, cur, r, hx => by
    unfold treeDeleteLoop
    cases hc : r.get cur with
    | none => rfl
    | some c =>
      simp only [Option.some_bind]
      cases c.firstChild with
      | some child => exact treeDeleteLoop_undeletable child hx
      | none =>
        cases hdel : castleVersionDelete cur r with
        | none => rfl
        | some res =>
          obtain ⟨r', parent⟩ := res
          obtain ⟨⟨u, hu, hatt, hpar, hsome⟩, hpin⟩ := castleVersionDelete_some hdel
          have hne : cur ≠ version := by
            rintro rfl
            obtain ⟨u', hu', hflags⟩ := hx
            rw [hu] at hu'
            cases hu'
            cases parent <;> simp_all
          obtain ⟨p, rfl⟩ := Option.isSome_iff_exists.mp hsome
          simp only [Option.some_bind, if_neg hne]
          exact treeDeleteLoop_undeletable p (hx.of_pinned (hpin version hne))

/-- `castle_version_tree_delete(x)` on a registered, inited `x` that is attached or has no parent
(version `0`, the root) never returns: it reaches a `BUG_ON` or a `NULL` dereference, after
deleting what it deleted of `x`'s subtree on the way. -/
theorem tree_delete_undeletable_bug (r : Registry) (x : Nat) (v : Version) (hx : r.get x = some v)
    (hinit : v.inited = true) (hv : v.attached = true ∨ v.parent = none) :
    castleVersionTreeDelete x r = none := by
  simp [castleVersionTreeDelete, hx, hinit, treeDeleteLoop_undeletable x ⟨v, hx, hv⟩]

/-- Version `0` right after `castle_versions_zero_init`. -/
theorem tree_delete_undeletable_bug_example :
    castleVersionTreeDelete 0 (castleVersionsZeroInit freshRegistry).1 = none :=
  tree_delete_undeletable_bug _ 0 _ rfl rfl (.inr rfl)

end Versions
end Castle
