import Castle.Cache

/-!
# Reading the version tree at filesystem init

`castle_fs_init` (`castle_main.c`) reads the filesystem superblock of every slave, keeps the
first valid one (every later valid one must be the same), and reads the version tree from the
block that superblock names with `castle_version_tree_read`; the filesystem is marked inited
when that read returns `0`.  `castle_version_tree_read` reads a node's header, checks
`capacity ≤ VTREE_NODE_SLOTS` and `used ≤ capacity`, reads the `used` slots, and reads the child
of every `NODE` or `NODE_LAST` slot by recursion.

Reads go through `castle_sub_block_read`, which is outside `src/`: the slaves are modelled, as
the spec describes their contents, by what that read returns, its error and the header, slots or
superblock it fills in.  `VTREE_NODE_SLOTS` is defined outside `src/` too and is a parameter.
The reader recurses on fuel, one unit a level; `none` is the fuel running out.  Allocation is
assumed to succeed.  `castleVersionTreeRead` leaves out the frees; `castleVersionTreeReadFreeing`
keeps those of the error path, and returns what the first returns whenever it returns.

A node whose header breaks the bounds is left with `return ret`, and `ret` is then still the `0`
of the header read: the node counts as read, `*v_node` is not written, and `castle_fs_init`
marks the filesystem inited (`fs_init_accepts_bad_vtree_header`).  Nothing stops a slot from
pointing back at its own node or at an ancestor, and on such an image the reader recurses for
ever (`tree_read_loops_on_cycle`); on an image whose slots lead down it always returns, `0` or
an error of one of its reads, whatever the depth allowed above the tree's
(`tree_read_returns_of_rank`).  `castle_fs_init` returns `0` exactly when some slave's
superblock is valid, every valid one is the same, and the tree at its root reads with `0`
(`fs_init_succeeds_iff`).  When a child read fails after a leaf slot, the frees of the error
path destroy the leaf's `NULL` child pointer (`tree_read_cleanup_derefs_null`).
-/

namespace Castle
namespace Main

/-! ## The slaves and their contents -/

/-- A slave, as `castle_slave_find_by_uuid` sees it: the uuid of its superblock. -/
structure Slave where
  uuid : Nat
deriving DecidableEq, Repr

/-- `castle_slave_find_by_uuid`: the first slave with that uuid. -/
def castleSlaveFindByUuid (slaves : List Slave) (uuid : Nat) : Option Slave :=
  slaves.find? fun s => s.uuid = uuid

/-- `castle_slave_find_by_block`: the slave of the block's disk. -/
def castleSlaveFindByBlock (slaves : List Slave) (cdb : Cdb) : Option Slave :=
  castleSlaveFindByUuid slaves cdb.disk

/-- A slot of a version-tree node: `NODE` and `NODE_LAST` hold the block of a child node, `LEAF`
a version number and a block. -/
inductive VtreeSlot
  | node (cdb : Cdb)
  | nodeLast (cdb : Cdb)
  | leaf (versionNr : Nat) (cdb : Cdb)
deriving DecidableEq, Repr

/-- The child block of a `NODE` or `NODE_LAST` slot. -/
def VtreeSlot.child : VtreeSlot → Option Cdb
  | node c => some c
  | nodeLast c => some c
  | leaf _ _ => none

/-- The fixed header of an on-disk version-tree node. -/
structure VtreeHeader where
  capacity : Nat
  used : Nat
deriving DecidableEq, Repr

/-- A `struct castle_fs_superblock`, every field `castle_fs_superblock_print` shows. -/
structure FsSuperblock where
  magic1 : Nat
  magic2 : Nat
  magic3 : Nat
  salt : Nat
  peper : Nat
  fwdTreeDisk1 : Nat
  fwdTreeBlock1 : Nat
  fwdTreeDisk2 : Nat
  fwdTreeBlock2 : Nat
  revTreeDisk1 : Nat
  revTreeBlock1 : Nat
  revTreeDisk2 : Nat
  revTreeBlock2 : Nat
deriving DecidableEq, Repr

/-- The block of the version tree's root: `fwd_tree_disk1`, `fwd_tree_block1`. -/
def FsSuperblock.fwdTreeBlk (sb : FsSuperblock) : Cdb := ⟨sb.fwdTreeDisk1, sb.fwdTreeBlock1⟩

/-- Modelled from the spec: what `castle_sub_block_read` returns on the slaves.  For each block,
the error of reading a node header there and the header it fills in, the error of reading a
given number of slots after the header and the slots; for each slave (by uuid), the error of
reading its filesystem superblock and the superblock. -/
structure Image where
  headerErr : Cdb → Int
  header : Cdb → VtreeHeader
  slotsErr : Cdb → Nat → Int
  slot : Cdb → Nat → VtreeSlot
  superErr : Nat → Int
  superblock : Nat → FsSuperblock

/-! ## `castle_version_tree_read` -/

/-- A `struct castle_vtree_node` as the reader fills it in: the header, the slots, and for each
slot the child read (`none`: the pointer stays `NULL`). -/
inductive VtreeNode
  | mk (capacity used : Nat) (slots : List VtreeSlot) (children : List (Option VtreeNode))

/-- The loop over the slots of `castle_version_tree_read` from slot `i`, `n` slots to go, with
`read` for the recursive call.  A `NODE` or `NODE_LAST` slot reads its child, and a child that
returns a negative value ends the loop with that value; a `LEAF` slot is only printed.  The
result is that value, or the children read. -/
def readSlots (read : Cdb → Option (Int × Option VtreeNode)) (slot : Nat → VtreeSlot) :
    Nat → Nat → Option (Except Int (List (Option VtreeNode)))
  | _, 0 => some (.ok [])
  | i, n + 1 =>
    match (slot i).child with
    | none => (readSlots read slot (i + 1) n).map fun r => r.map (none :: ·)
    | some c => (read c).bind fun (ret, child) =>
      if ret < 0 then some (.error ret)
      else (readSlots read slot (i + 1) n).map fun r => r.map (child :: ·)

/-- What `castle_version_tree_read` returns after its slot loop, and what it writes to
`*v_node`. -/
def loopResult (h : VtreeHeader) (slots : List VtreeSlot) :
    Except Int (List (Option VtreeNode)) → Int × Option VtreeNode
  | .error ret => (ret, none)
  | .ok children => (0, some (.mk h.capacity h.used slots children))

/-- The slots a node's header says are used. -/
def Image.slots (img : Image) (cdb : Cdb) : List VtreeSlot :=
  (List.range (img.header cdb).used).map (img.slot cdb)

/-- `castle_version_tree_read(cdb, v_node)` with `vtreeNodeSlots` for `VTREE_NODE_SLOTS`: the
value returned, and the node written to `*v_node` (`none`: not written).  `-ENODEV` is `-19`. -/
def castleVersionTreeRead (vtreeNodeSlots : Nat) (slaves : List Slave) (img : Image) :
    Nat → Cdb → Option (Int × Option VtreeNode)
  | 0, _ => none
  | fuel + 1, cdb =>
    match castleSlaveFindByBlock slaves cdb with
    | none => some (-19, none)
    | some _ =>
      let ret := img.headerErr cdb
      if ret ≠ 0 then some (ret, none) else
      let h := img.header cdb
      if h.capacity > vtreeNodeSlots ∨ h.used > h.capacity then some (ret, none) else
      let ret := img.slotsErr cdb h.used
      if ret ≠ 0 then some (ret, none) else
      (readSlots (castleVersionTreeRead vtreeNodeSlots slaves img fuel) (img.slot cdb) 0 h.used).map
        (loopResult h (img.slots cdb))

/-! ## `castle_fs_init` -/

/-- `castle_fs_superblock_validate`. -/
def castleFsSuperblockValidate (fsSb : FsSuperblock) : Int :=
  if fsSb.magic1 ≠ 0x19731121 then -1
  else if fsSb.magic2 ≠ 0x19880624 then -2
  else if fsSb.magic3 ≠ 0x19821120 then -3
  else 0

/-- `castle_fs_superblock_read`: the error, and the superblock read. -/
def castleFsSuperblockRead (img : Image) (cs : Slave) : Int × FsSuperblock :=
  let fsSb := img.superblock cs.uuid
  let err := img.superErr cs.uuid
  if err ≠ 0 then (err, fsSb) else
  let err := castleFsSuperblockValidate fsSb
  if err ≠ 0 then (err, fsSb) else (0, fsSb)

/-- The loop of `castle_fs_init` over the slaves with `castle_fs_super` and the flag `first`: a
slave whose superblock does not read or validate is skipped, the first valid superblock is
saved, and a later one that differs from it is `-EINVAL` (`.error`, with what was saved). -/
def superblockLoop (img : Image) :
    List Slave → FsSuperblock → Bool → Except FsSuperblock (FsSuperblock × Bool)
  | [], super, first => .ok (super, first)
  | cs :: rest, super, first =>
    let (ret, fsSb) := castleFsSuperblockRead img cs
    if ret ≠ 0 then superblockLoop img rest super first
    else if first then superblockLoop img rest fsSb false
    else if super ≠ fsSb then .error super
    else superblockLoop img rest super first

/-- `castle_fs_inited` and `castle_fs_super`. -/
structure FsState where
  inited : Bool
  super : FsSuperblock

/-- `castle_fs_init`, with `fuel` for the version-tree read: the value returned and the state
after.  `-EEXIST` is `-17`, `-ENOENT` is `-2`, `-EINVAL` is `-22`. -/
def castleFsInit (vtreeNodeSlots : Nat) (slaves : List Slave) (img : Image) (fuel : Nat)
    (s : FsState) : Option (Int × FsState) :=
  if s.inited then some (-17, s)
  else if slaves.isEmpty then some (-2, s)
  else match superblockLoop img slaves s.super true with
    | .error super => some (-22, { s with super := super })
    | .ok (super, first) =>
      if first then some (-2, { s with super := super })
      else (castleVersionTreeRead vtreeNodeSlots slaves img fuel super.fwdTreeBlk).map fun r =>
        if r.1 ≠ 0 then (-22, { s with super := super }) else (0, ⟨true, super⟩)


/-! ## One call of the reader -/

/-- The node at `cdb` reads cleanly: its slave is found, its header reads and is within the
bounds, and its slots read. -/
structure NodeReads (N : Nat) (slaves : List Slave) (img : Image) (cdb : Cdb) : Prop where
  slave : (castleSlaveFindByBlock slaves cdb).isSome
  header : img.headerErr cdb = 0
  capacity : (img.header cdb).capacity ≤ N
  used : (img.header cdb).used ≤ (img.header cdb).capacity
  slots : img.slotsErr cdb (img.header cdb).used = 0

section read
variable {N : Nat} {slaves : List Slave} {img : Image} {fuel : Nat} {cdb : Cdb}

/-- A node that reads cleanly goes on to its slot loop. -/
theorem castleVersionTreeRead_of_reads (h : NodeReads N slaves img cdb) :
    castleVersionTreeRead N slaves img (fuel + 1) cdb =
      (readSlots (castleVersionTreeRead N slaves img fuel) (img.slot cdb) 0
        (img.header cdb).used).map (loopResult (img.header cdb) (img.slots cdb)) := by
  obtain ⟨cs, hcs⟩ := Option.isSome_iff_exists.mp h.slave
  simp [castleVersionTreeRead, hcs, h.header, h.slots, Nat.not_lt.mpr h.capacity,
    Nat.not_lt.mpr h.used]

/-- A node that does not read cleanly is left at once, and `*v_node` is not written. -/
theorem castleVersionTreeRead_of_not_reads (h : ¬ NodeReads N slaves img cdb) :
    ∃ ret, castleVersionTreeRead N slaves img (fuel + 1) cdb = some (ret, none) := by
  rw [castleVersionTreeRead]
  split
  · exact ⟨_, rfl⟩
  · rename_i cs hcs
    dsimp only
    split_ifs with h1 h2 h3
    · exact ⟨_, rfl⟩
    · exact ⟨_, rfl⟩
    · exact ⟨_, rfl⟩
    · exact absurd ⟨by simp [hcs], not_not.mp h1, by omega, by omega, not_not.mp h3⟩ h

/-- A node that does not read cleanly is left before the fuel is looked at. -/
theorem castleVersionTreeRead_fuel_of_not_reads (h : ¬ NodeReads N slaves img cdb) (fuel' : Nat) :
    castleVersionTreeRead N slaves img (fuel + 1) cdb =
      castleVersionTreeRead N slaves img (fuel' + 1) cdb := by
  simp only [castleVersionTreeRead]
  split
  · rfl
  · rename_i cs hcs
    split_ifs with h1 h2 h3 <;> try rfl
    exact absurd ⟨by simp [hcs], not_not.mp h1, by omega, by omega, not_not.mp h3⟩ h

/-- A node whose header reads but breaks the bounds is left with the `0` of that read. -/
theorem castleVersionTreeRead_bad_header (hcs : (castleSlaveFindByBlock slaves cdb).isSome)
    (hok : img.headerErr cdb = 0)
    (hbad : N < (img.header cdb).capacity ∨ (img.header cdb).capacity < (img.header cdb).used) :
    castleVersionTreeRead N slaves img (fuel + 1) cdb = some (0, none) := by
  obtain ⟨cs, hcs⟩ := Option.isSome_iff_exists.mp hcs
  simp [castleVersionTreeRead, hcs, hok, hbad]

end read

/-! ## Termination -/

section loop
variable {read read' : Cdb → Option (Int × Option VtreeNode)} {slot : Nat → VtreeSlot}

/-- The slot loop returns when every child it reads returns. -/
theorem readSlots_isSome : ∀ {i n : Nat},
    (∀ j < n, ∀ c, (slot (i + j)).child = some c → (read c).isSome) →
      (readSlots read slot i n).isSome
  | _, 0, _ => rfl
  | i, n + 1, h => by
    have ih : (readSlots read slot (i + 1) n).isSome := readSlots_isSome fun j hj c hc =>
      h (j + 1) (by omega) c (by rwa [Nat.add_right_comm] at hc)
    rw [readSlots]
    split
    · simpa using ih
    · rename_i c hc
      obtain ⟨⟨ret, child⟩, hr⟩ := Option.isSome_iff_exists.mp (h 0 (by omega) c hc)
      simp only [hr, Option.some_bind]
      split_ifs
      · rfl
      · simpa using ih

/-- Leaves and then a slot whose child read does not return: the slot loop does not return. -/
theorem readSlots_eq_none {c : Cdb} (hc : read c = none) : ∀ {i n k : Nat}, k < n →
    (∀ j < k, (slot (i + j)).child = none) → (slot (i + k)).child = some c →
      readSlots read slot i n = none
  | i, n + 1, 0, _, _, hk => by
    rw [Nat.add_zero] at hk
    simp [readSlots, hk, hc]
  | i, n + 1, k + 1, hkn, hl, hk => by
    have h0 : (slot i).child = none := hl 0 (by omega)
    have ih : readSlots read slot (i + 1) n = none :=
      @readSlots_eq_none c hc (i + 1) n k (by omega)
        (fun j hj => by rw [Nat.add_right_comm]; exact hl (j + 1) (by omega))
        (by rw [Nat.add_right_comm]; exact hk)
    simp [readSlots, h0, ih]

/-- A slot loop that returns returns the same over a read that returns what `read` returns. -/
theorem readSlots_mono (hread : ∀ c r, read c = some r → read' c = some r) :
    ∀ {i n : Nat} {e}, readSlots read slot i n = some e → readSlots read' slot i n = some e
  | _, 0, _, h => h
  | i, n + 1, e, h => by
    cases hc : (slot i).child with
    | none =>
      simp only [readSlots, hc] at h ⊢
      obtain ⟨e', he', rfl⟩ := Option.map_eq_some'.mp h
      rw [readSlots_mono hread he', Option.map_some']
    | some c =>
      simp only [readSlots, hc] at h ⊢
      obtain ⟨⟨ret, child⟩, hr, h⟩ := Option.bind_eq_some.mp h
      rw [hread _ _ hr, Option.some_bind]
      split_ifs at h ⊢
      · exact h
      · obtain ⟨e', he', rfl⟩ := Option.map_eq_some'.mp h
        rw [readSlots_mono hread he', Option.map_some']

/-- A slot loop that ends in an error ends with what the read of a child returned. -/
theorem readSlots_error : ∀ {i n : Nat} {ret : Int}, readSlots read slot i n = some (.error ret) →
    ∃ c node, read c = some (ret, node)
  | _, 0, _, h => by simp [readSlots] at h
  | i, n + 1, ret, h => by
    have hrest {child : Option VtreeNode} (h : (readSlots read slot (i + 1) n).map
        (fun r => r.map (child :: ·)) = some (.error ret)) : ∃ c node, read c = some (ret, node) := by
      obtain ⟨e, he, hmap⟩ := Option.map_eq_some'.mp h
      cases e with
      | error e => cases hmap; exact readSlots_error he
      | ok l => cases hmap
    cases hc : (slot i).child with
    | none => simp only [readSlots, hc] at h; exact hrest h
    | some c =>
      simp only [readSlots, hc] at h
      obtain ⟨⟨r, child⟩, hr, h⟩ := Option.bind_eq_some.mp h
      split_ifs at h
      · cases h; exact ⟨c, child, hr⟩
      · exact hrest h

end loop

section termination
variable {N : Nat} {slaves : List Slave} {img : Image}

/-- Fuel above the rank is enough, by induction on the fuel. -/
theorem castleVersionTreeRead_isSome_of_rank (rank : Cdb → Nat)
    (hrank : ∀ c, NodeReads N slaves img c → ∀ i < (img.header c).used, ∀ c',
      (img.slot c i).child = some c' → rank c' < rank c) :
    ∀ fuel cdb, rank cdb < fuel → (castleVersionTreeRead N slaves img fuel cdb).isSome
  | 0, _, h => absurd h (Nat.not_lt_zero _)
  | fuel + 1, cdb, h => by
    by_cases hr : NodeReads N slaves img cdb
    · rw [castleVersionTreeRead_of_reads hr, Option.isSome_map']
      exact readSlots_isSome fun j hj c hc => castleVersionTreeRead_isSome_of_rank rank hrank fuel c
        (by have := hrank cdb hr j hj c (by simpa using hc); omega)
    · obtain ⟨ret, h'⟩ := @castleVersionTreeRead_of_not_reads N slaves img fuel cdb hr
      rw [h']
      rfl

/-- The values `castle_version_tree_read` returns: `0`, `-ENODEV`, or the error of a read of a
header or of slots. -/
def TreeReadRet (img : Image) (ret : Int) : Prop :=
  ret = 0 ∨ ret = -19 ∨ (∃ c, ret = img.headerErr c) ∨ ∃ c n, ret = img.slotsErr c n

/-- Whatever the image, what the reader returns is `0` or an error of one of its reads. -/
theorem castleVersionTreeRead_ret : ∀ {fuel : Nat} {cdb : Cdb} {r : Int × Option VtreeNode},
    castleVersionTreeRead N slaves img fuel cdb = some r → TreeReadRet img r.1
  | 0, _, _, h => Option.noConfusion h
  | fuel + 1, cdb, r, h => by
    simp only [castleVersionTreeRead] at h
    split at h
    · cases h; exact Or.inr (Or.inl rfl)
    · split_ifs at h
      · cases h; exact Or.inr (Or.inr (Or.inl ⟨cdb, rfl⟩))
      · cases h; exact Or.inr (Or.inr (Or.inl ⟨cdb, rfl⟩))
      · cases h; exact Or.inr (Or.inr (Or.inr ⟨cdb, _, rfl⟩))
      · obtain ⟨e, he, rfl⟩ := Option.map_eq_some'.mp h
        cases e with
        | ok children => exact Or.inl rfl
        | error ret =>
          obtain ⟨c, node, hc⟩ := readSlots_error he
          exact (castleVersionTreeRead_ret hc :)

/-- One more level of recursion does not change what the reader returns. -/
theorem castleVersionTreeRead_succ : ∀ {fuel : Nat} {cdb : Cdb} {r : Int × Option VtreeNode},
    castleVersionTreeRead N slaves img fuel cdb = some r →
      castleVersionTreeRead N slaves img (fuel + 1) cdb = some r
  | 0, _, _, h => Option.noConfusion h
  | fuel + 1, cdb, r, h => by
    by_cases hr : NodeReads N slaves img cdb
    · rw [castleVersionTreeRead_of_reads hr] at h ⊢
      obtain ⟨e, he, rfl⟩ := Option.map_eq_some'.mp h
      rw [readSlots_mono (fun _ _ => castleVersionTreeRead_succ) he, Option.map_some']
    · rwa [castleVersionTreeRead_fuel_of_not_reads hr fuel]

/-- Once the reader returns, more fuel returns the same. -/
theorem castleVersionTreeRead_mono {fuel fuel' : Nat} {cdb : Cdb} {r : Int × Option VtreeNode}
    (h : castleVersionTreeRead N slaves img fuel cdb = some r) (hle : fuel ≤ fuel') :
    castleVersionTreeRead N slaves img fuel' cdb = some r := by
  induction hle with
  | refl => exact h
  | step _ ih => exact castleVersionTreeRead_succ ih

/-- Blocks each holding a node that reads cleanly and whose slots, up to a `NODE` or `NODE_LAST`
slot pointing back into the set, are leaves. -/
def Cycle (N : Nat) (slaves : List Slave) (img : Image) (S : Cdb → Prop) : Prop :=
  ∀ c, S c → NodeReads N slaves img c ∧ ∃ i < (img.header c).used,
    (∀ j < i, (img.slot c j).child = none) ∧ ∃ c', (img.slot c i).child = some c' ∧ S c'

/-- From a block of a cycle the reader never returns: no fuel is enough. -/
theorem tree_read_loops_on_cycle {S : Cdb → Prop} (hcyc : Cycle N slaves img S) :
    ∀ fuel cdb, S cdb → castleVersionTreeRead N slaves img fuel cdb = none
  | 0, _, _ => rfl
  | fuel + 1, cdb, hS => by
    obtain ⟨hr, i, hi, hleaf, c', hc', hS'⟩ := hcyc cdb hS
    rw [castleVersionTreeRead_of_reads hr, readSlots_eq_none
      (tree_read_loops_on_cycle hcyc fuel c' hS') hi (by simpa using hleaf) (by simpa using hc')]
    rfl

/-- The zeroed `castle_fs_super` of a module just loaded. -/
def zeroSuper : FsSuperblock := ⟨0, 0, 0, 0, 0, 0, 0, 0, 0, 0, 0, 0, 0⟩

/-- One slave, uuid `0`, whose block `0` holds a node with one `NODE` slot pointing at itself. -/
def selfLoopImage : Image where
  headerErr _ := 0
  header _ := ⟨1, 1⟩
  slotsErr _ _ := 0
  slot _ _ := .node ⟨0, 0⟩
  superErr _ := 0
  superblock _ := zeroSuper

/-- One slave, uuid `0`: block `0` holds a node of two slots, the second a `NODE` slot pointing
at block `1`; every other slot is a leaf. -/
def twoLevelImage : Image where
  headerErr _ := 0
  header c := if c.block = 0 then ⟨2, 2⟩ else ⟨1, 1⟩
  slotsErr _ _ := 0
  slot c i := if c.block = 0 ∧ i = 1 then .node ⟨0, 1⟩ else .leaf 1 ⟨0, 5⟩
  superErr _ := 0
  superblock _ := zeroSuper

/-- Its blocks ranked by level: `1` for the root, `0` for the rest. -/
def twoLevelRank (c : Cdb) : Nat := if c.block = 0 then 1 else 0

/-- Its one `NODE` slot leads from rank `1` to rank `0`. -/
theorem twoLevel_rank_lt : ∀ c, NodeReads 2 [⟨0⟩] twoLevelImage c →
    ∀ i < (twoLevelImage.header c).used, ∀ c',
      (twoLevelImage.slot c i).child = some c' → twoLevelRank c' < twoLevelRank c := by
  intro c _ i _ c' hc'
  simp only [twoLevelImage] at hc'
  split_ifs at hc' with h
  · simp only [VtreeSlot.child, Option.some.injEq] at hc'
    subst hc'
    simp [twoLevelRank, h.1]
  · simp [VtreeSlot.child] at hc'

end termination

/-! ## Freeing on the error path

When the child of slot `i` fails, `castle_version_tree_read` frees what it has read of the node,
`castle_version_node_destroy` on `children[i-1]`, …, `children[0]`, and returns the failure.
A leaf slot's child pointer is still the `NULL` of the `memset`, and so is that of a child that
returned without writing `*v_node`; `castle_version_node_destroy` reads `v_node->used` through
it.  The reader without the frees, `castleVersionTreeRead`, is what the reader with them computes
whenever that one returns (`castleVersionTreeReadFreeing_refines`). -/

mutual
/-- The loop of `castle_version_node_destroy` over a node's slots and children (the reader builds
nodes with `used` of each, the bound of the C loop).  It descends into the children of `NODE`
slots only: those of `NODE_LAST` slots are not freed. -/
def destroySlots : List VtreeSlot → List (Option VtreeNode) → Option Unit
  | .node _ :: slots, child :: children =>
    (castleVersionNodeDestroy child).bind fun _ => destroySlots slots children
  | _ :: slots, _ :: children => destroySlots slots children
  | _, _ => some ()
termination_by structural _ children => children

/-- `castle_version_node_destroy` on a node. -/
def VtreeNode.destroy : VtreeNode → Option Unit
  | .mk _ _ slots children => destroySlots slots children
termination_by structural node => node

/-- `castle_version_node_destroy(v_node)`; `none` is the dereference of a `NULL` node. -/
def castleVersionNodeDestroy : Option VtreeNode → Option Unit
  | none => none
  | some node => node.destroy
termination_by structural node => node
end

/-- The slot loop of `castle_version_tree_read` with the children read so far: when the child of
a slot fails, they are destroyed, the last first, before the failure is returned (`none`: a
`NULL` dereference there, or the fuel running out). -/
def readSlotsFreeing (read : Cdb → Option (Int × Option VtreeNode)) (slot : Nat → VtreeSlot) :
    Nat → Nat → List (Option VtreeNode) → Option (Except Int (List (Option VtreeNode)))
  | _, 0, children => some (.ok children)
  | i, n + 1, children =>
    match (slot i).child with
    | none => readSlotsFreeing read slot (i + 1) n (children ++ [none])
    | some c => (read c).bind fun (ret, child) =>
      if ret < 0 then (children.reverse.mapM castleVersionNodeDestroy).map fun _ => .error ret
      else readSlotsFreeing read slot (i + 1) n (children ++ [child])

/-- `castle_version_tree_read(cdb, v_node)` with the frees of its error path. -/
def castleVersionTreeReadFreeing (vtreeNodeSlots : Nat) (slaves : List Slave) (img : Image) :
    Nat → Cdb → Option (Int × Option VtreeNode)
  | 0, _ => none
  | fuel + 1, cdb =>
    match castleSlaveFindByBlock slaves cdb with
    | none => some (-19, none)
    | some _ =>
      let ret := img.headerErr cdb
      if ret ≠ 0 then some (ret, none) else
      let h := img.header cdb
      if h.capacity > vtreeNodeSlots ∨ h.used > h.capacity then some (ret, none) else
      let ret := img.slotsErr cdb h.used
      if ret ≠ 0 then some (ret, none) else
      (readSlotsFreeing (castleVersionTreeReadFreeing vtreeNodeSlots slaves img fuel) (img.slot cdb)
        0 h.used []).map (loopResult h (img.slots cdb))

section freeing
variable {N : Nat} {slaves : List Slave} {img : Image} {fuel : Nat} {cdb : Cdb}

/-- Destroying a list of children one of which is `NULL` dereferences it. -/
theorem mapM_destroy_of_null {children : List (Option VtreeNode)} (h : none ∈ children) :
    children.mapM castleVersionNodeDestroy = none := by
  induction children with
  | nil => cases h
  | cons c rest ih =>
    rw [List.mapM_cons]
    rcases List.mem_cons.mp h with rfl | h
    · rfl
    · rw [ih h]
      cases castleVersionNodeDestroy c <;> rfl

theorem castleVersionTreeReadFreeing_of_reads (h : NodeReads N slaves img cdb) :
    castleVersionTreeReadFreeing N slaves img (fuel + 1) cdb =
      (readSlotsFreeing (castleVersionTreeReadFreeing N slaves img fuel) (img.slot cdb) 0
        (img.header cdb).used []).map (loopResult (img.header cdb) (img.slots cdb)) := by
  obtain ⟨cs, hcs⟩ := Option.isSome_iff_exists.mp h.slave
  simp [castleVersionTreeReadFreeing, hcs, h.header, h.slots, Nat.not_lt.mpr h.capacity,
    Nat.not_lt.mpr h.used]

/-- Before the slot loop the two readers do the same. -/
theorem castleVersionTreeReadFreeing_of_not_reads (h : ¬ NodeReads N slaves img cdb) :
    castleVersionTreeReadFreeing N slaves img (fuel + 1) cdb =
      castleVersionTreeRead N slaves img (fuel + 1) cdb := by
  rw [castleVersionTreeReadFreeing, castleVersionTreeRead]
  split
  · rfl
  · rename_i cs hcs
    dsimp only
    split_ifs with h1 h2 h3
    · rfl
    · rfl
    · rfl
    · exact absurd ⟨by simp [hcs], not_not.mp h1, by omega, by omega, not_not.mp h3⟩ h

section loop
variable {read read' : Cdb → Option (Int × Option VtreeNode)} {slot : Nat → VtreeSlot}

/-- The slot loop with frees, over children reads that the reader without frees also returns,
returns what the loop without frees returns, after the children it started with. -/
theorem readSlotsFreeing_refines (hread : ∀ c r, read' c = some r → read c = some r) :
    ∀ {i n : Nat} {children : List (Option VtreeNode)} {e},
      readSlotsFreeing read' slot i n children = some e →
      ∃ e', readSlots read slot i n = some e' ∧ e = e'.map (children ++ ·)
  | _, 0, children, e, h => ⟨.ok [], rfl, by
      simp only [readSlotsFreeing, Option.some.injEq] at h
      simp [← h, Except.map]⟩
  | i, n + 1, children, e, h => by
    cases hc : (slot i).child with
    | none =>
      simp only [readSlotsFreeing, hc] at h
      obtain ⟨e', he', rfl⟩ := readSlotsFreeing_refines hread h
      exact ⟨e'.map (none :: ·), by simp [readSlots, hc, he'], by cases e' <;> simp [Except.map]⟩
    | some c =>
      simp only [readSlotsFreeing, hc] at h
      obtain ⟨⟨ret, child⟩, hr, h⟩ := Option.bind_eq_some.mp h
      dsimp only at h
      split_ifs at h with hneg
      · obtain ⟨_, -, rfl⟩ := Option.map_eq_some'.mp h
        exact ⟨.error ret, by simp [readSlots, hc, hread _ _ hr, hneg], rfl⟩
      · obtain ⟨e', he', rfl⟩ := readSlotsFreeing_refines hread h
        exact ⟨e'.map (child :: ·), by simp [readSlots, hc, hread _ _ hr, hneg, he'],
          by cases e' <;> simp [Except.map]⟩

/-- The loop goes through slots whose children read without failing, a leaf adding a `NULL`
child. -/
theorem readSlotsFreeing_advance (m : Nat) : ∀ {i k : Nat} {children : List (Option VtreeNode)},
    (∀ j < k, ∀ c, (slot (i + j)).child = some c → ∃ r, read c = some r ∧ 0 ≤ r.1) →
    ∃ cs : List (Option VtreeNode), cs.length = k ∧
      (∀ j < k, (slot (i + j)).child = none → cs[j]? = some none) ∧
      readSlotsFreeing read slot i (k + m) children =
        readSlotsFreeing read slot (i + k) m (children ++ cs)
  | _, 0, _, _ => ⟨[], rfl, fun _ hj => absurd hj (Nat.not_lt_zero _), by simp⟩
  | i, k + 1, children, hok => by
    have hstep : ∃ child : Option VtreeNode, ((slot i).child = none → child = none) ∧
        readSlotsFreeing read slot i (k + 1 + m) children =
          readSlotsFreeing read slot (i + 1) (k + m) (children ++ [child]) := by
      rw [show k + 1 + m = k + m + 1 by omega, readSlotsFreeing]
      cases hc : (slot i).child with
      | none => exact ⟨none, fun _ => rfl, rfl⟩
      | some c =>
        obtain ⟨⟨ret, child⟩, hr, hret⟩ := hok 0 (Nat.succ_pos k) c (by simpa using hc)
        exact ⟨child, fun h => Option.noConfusion h, by simp [hr, Int.not_lt.mpr hret]⟩
    obtain ⟨child, hnull, hstep⟩ := hstep
    have hshift (j : Nat) : i + 1 + j = i + (j + 1) := by omega
    obtain ⟨cs, hlen, hcs, hrest⟩ := @readSlotsFreeing_advance m (i + 1) k (children ++ [child])
      (fun j hj c hc => hok (j + 1) (by omega) c (by rwa [hshift] at hc))
    refine ⟨child :: cs, by simp [hlen], fun j hj hleaf => ?_, ?_⟩
    · cases j with
      | zero => simp [hnull (by simpa using hleaf)]
      | succ j => simpa using hcs j (by omega) (by rwa [hshift])
    · rw [hstep, hrest, show i + 1 + k = i + (k + 1) by omega]
      simp

end loop

/-- The reader without frees is what the reader with them computes whenever that one returns. -/
theorem castleVersionTreeReadFreeing_refines : ∀ {fuel : Nat} {cdb : Cdb} {r : Int × Option VtreeNode},
    castleVersionTreeReadFreeing N slaves img fuel cdb = some r →
      castleVersionTreeRead N slaves img fuel cdb = some r
  | 0, _, _, h => nomatch h
  | fuel + 1, cdb, r, h => by
    by_cases hr : NodeReads N slaves img cdb
    · rw [castleVersionTreeReadFreeing_of_reads hr] at h
      obtain ⟨e, he, rfl⟩ := Option.map_eq_some'.mp h
      obtain ⟨e', he', rfl⟩ := readSlotsFreeing_refines
        (fun c r h => castleVersionTreeReadFreeing_refines h) he
      rw [castleVersionTreeRead_of_reads hr, he']
      cases e' <;> rfl
    · rwa [castleVersionTreeReadFreeing_of_not_reads hr] at h

/-- **The error path dereferences `NULL`.**  In a node that reads cleanly, when the child of slot
`i` fails (returns a negative value) after a leaf slot `j < i`, every other child before it
having read, `castle_version_tree_read` destroys the children read so far, reaches the leaf's
`NULL` child pointer and dereferences it: the read with frees does not return, though the
failing child did. -/
theorem tree_read_cleanup_derefs_null (hr : NodeReads N slaves img cdb) {i j : Nat}
    (hi : i < (img.header cdb).used) (hj : j < i) (hleaf : (img.slot cdb j).child = none)
    (hok : ∀ k < i, ∀ c, (img.slot cdb k).child = some c →
      ∃ r, castleVersionTreeReadFreeing N slaves img fuel c = some r ∧ 0 ≤ r.1)
    {c : Cdb} (hc : (img.slot cdb i).child = some c) {ret : Int} {child : Option VtreeNode}
    (hfail : castleVersionTreeReadFreeing N slaves img fuel c = some (ret, child)) (hneg : ret < 0) :
    castleVersionTreeReadFreeing N slaves img (fuel + 1) cdb = none := by
  obtain ⟨m, hm⟩ : ∃ m, (img.header cdb).used = i + (m + 1) :=
    ⟨(img.header cdb).used - i - 1, by omega⟩
  obtain ⟨cs, -, hnull, hpre⟩ :=
    @readSlotsFreeing_advance _ (img.slot cdb) (m + 1) 0 i []
      fun k hk c hc => hok k hk c (by rwa [Nat.zero_add] at hc)
  have hcs : none ∈ cs.reverse :=
    List.mem_reverse.mpr (List.getElem?_mem (hnull j hj (by rwa [Nat.zero_add])))
  rw [castleVersionTreeReadFreeing_of_reads hr, hm, hpre, Nat.zero_add,
    readSlotsFreeing, hc]
  simp only [hfail, Option.some_bind, if_pos hneg, List.nil_append, mapM_destroy_of_null hcs,
    Option.map_none']

/-- One slave, uuid `0`, whose block `0` holds a node with a leaf slot and then a `NODE` slot
pointing at a block of slave `9`, which is not there. -/
def leafThenMissingImage : Image where
  headerErr _ := 0
  header _ := ⟨2, 2⟩
  slotsErr _ _ := 0
  slot _ i := if i = 1 then .node ⟨9, 0⟩ else .leaf 1 ⟨0, 5⟩
  superErr _ := 0
  superblock _ := zeroSuper

/-- Its root: without the frees the read returns `-ENODEV`; with them it dereferences the leaf's
`NULL` child. -/
theorem tree_read_cleanup_derefs_null_leafThenMissing :
    castleVersionTreeRead 2 [⟨0⟩] leafThenMissingImage 2 ⟨0, 0⟩ = some (-19, none) ∧
      castleVersionTreeReadFreeing 2 [⟨0⟩] leafThenMissingImage 2 ⟨0, 0⟩ = none :=
  ⟨rfl, @tree_read_cleanup_derefs_null 2 [⟨0⟩] leafThenMissingImage 1 ⟨0, 0⟩
    ⟨rfl, rfl, by decide, le_rfl, rfl⟩ 1 0 (by decide) (by decide) rfl
    (fun k hk c hc => absurd hc (by simp [leafThenMissingImage, VtreeSlot.child,
      show k = 0 by omega]))
    ⟨9, 0⟩ rfl (-19) none rfl (by decide)⟩

end freeing

/-! ## Filesystem init -/

section init
variable {N : Nat} {slaves : List Slave} {img : Image} {fuel : Nat} {s : FsState}
  {sb : FsSuperblock}

/-- `castle_fs_init` on a state not yet inited whose slave loop kept a superblock: the
version-tree read at its root decides. -/
theorem castleFsInit_of_loop (hinit : s.inited = false)
    (hloop : superblockLoop img slaves s.super true = .ok (sb, false)) :
    castleFsInit N slaves img fuel s =
      (castleVersionTreeRead N slaves img fuel sb.fwdTreeBlk).map fun r =>
        if r.1 ≠ 0 then (-22, { s with super := sb }) else (0, ⟨true, sb⟩) := by
  have hne : slaves.isEmpty = false := by
    cases slaves with
    | nil => cases hloop
    | cons _ _ => rfl
  simp only [castleFsInit, hinit, hne, hloop, Bool.false_eq_true, if_false]

/-- Once a superblock is saved, the slave loop keeps it, and succeeds exactly when every slave's
valid superblock is the same. -/
theorem superblockLoop_saved_iff : ∀ {l : List Slave} {super sb : FsSuperblock} {first : Bool},
    superblockLoop img l super false = .ok (sb, first) ↔ sb = super ∧ first = false ∧
      ∀ cs ∈ l, (castleFsSuperblockRead img cs).1 = 0 → (castleFsSuperblockRead img cs).2 = super
  | [], _, _, _ => by simp [superblockLoop, eq_comm]
  | cs :: rest, super, sb, first => by
    rcases h : castleFsSuperblockRead img cs with ⟨ret, fsSb⟩
    by_cases hret : ret = 0
    · by_cases heq : super = fsSb
      · simp [superblockLoop, h, hret, heq, superblockLoop_saved_iff]
      · simp [superblockLoop, h, hret, heq, Ne.symm heq]
    · simp [superblockLoop, h, hret, superblockLoop_saved_iff]

/-- From the start, the slave loop saves a superblock and succeeds exactly when some slave's
superblock reads and validates and every one that does is that superblock. -/
theorem superblockLoop_first_iff : ∀ {l : List Slave} {super sb : FsSuperblock},
    superblockLoop img l super true = .ok (sb, false) ↔
      (∃ cs ∈ l, (castleFsSuperblockRead img cs).1 = 0) ∧
      ∀ cs ∈ l, (castleFsSuperblockRead img cs).1 = 0 → (castleFsSuperblockRead img cs).2 = sb
  | [], _, _ => by simp [superblockLoop]
  | cs :: rest, super, sb => by
    rcases h : castleFsSuperblockRead img cs with ⟨ret, fsSb⟩
    by_cases hret : ret = 0
    · by_cases hsb : sb = fsSb
      · subst hsb
        simp [superblockLoop, h, hret, superblockLoop_saved_iff]
      · simp [superblockLoop, h, hret, superblockLoop_saved_iff, hsb, Ne.symm hsb]
    · simp [superblockLoop, h, hret, superblockLoop_first_iff]

/-- **When the filesystem inits.**  `castle_fs_init` returns `0` exactly when the filesystem was
not inited, some slave's filesystem superblock reads and validates, every slave's superblock that
does is the one saved, and the version tree at that superblock's root reads with `0`; it then
marks the filesystem inited. -/
theorem fs_init_succeeds_iff {s' : FsState} :
    castleFsInit N slaves img fuel s = some (0, s') ↔
      s.inited = false ∧ s'.inited = true ∧
      (∃ cs ∈ slaves, (castleFsSuperblockRead img cs).1 = 0) ∧
      (∀ cs ∈ slaves,
        (castleFsSuperblockRead img cs).1 = 0 → (castleFsSuperblockRead img cs).2 = s'.super) ∧
      (castleVersionTreeRead N slaves img fuel s'.super.fwdTreeBlk).map Prod.fst = some 0 := by
  constructor
  · intro h
    have hinit : s.inited = false := by
      cases hi : s.inited
      · rfl
      · simp [castleFsInit, hi] at h
    simp only [castleFsInit, hinit, Bool.false_eq_true, if_false] at h
    split_ifs at h
    · simp at h
    split at h
    · simp at h
    · rename_i super first hloop
      cases first
      · obtain ⟨r, hr, he⟩ := Option.map_eq_some'.mp h
        split_ifs at he with hr0
        · simp at he
        obtain ⟨-, rfl⟩ := Prod.mk.inj_iff.mp he
        obtain ⟨hex, hall⟩ := superblockLoop_first_iff.mp hloop
        exact ⟨hinit, rfl, hex, hall, by simp [hr, not_not.mp hr0]⟩
      · simp at h
  · rintro ⟨hinit, hs', hex, hall, hread⟩
    obtain ⟨r, hr, hr0⟩ := Option.map_eq_some'.mp hread
    have hloop : superblockLoop img slaves s.super true = .ok (s'.super, false) :=
      superblockLoop_first_iff.mpr ⟨hex, hall⟩
    rw [castleFsInit_of_loop hinit hloop, hr]
    obtain ⟨inited, super⟩ := s'
    simp only at hs'
    simp [hr0, hs']

/-- A version-tree root whose header reads but breaks the bounds is reported read with `0`,
`*v_node` is not written, and `castle_fs_init` marks the filesystem inited. -/
theorem fs_init_accepts_bad_vtree_header (hinit : s.inited = false)
    (hloop : superblockLoop img slaves s.super true = .ok (sb, false))
    (hcs : (castleSlaveFindByBlock slaves sb.fwdTreeBlk).isSome)
    (hok : img.headerErr sb.fwdTreeBlk = 0)
    (hbad : N < (img.header sb.fwdTreeBlk).capacity ∨
      (img.header sb.fwdTreeBlk).capacity < (img.header sb.fwdTreeBlk).used) :
    castleVersionTreeRead N slaves img (fuel + 1) sb.fwdTreeBlk = some (0, none) ∧
      castleFsInit N slaves img (fuel + 1) s = some (0, ⟨true, sb⟩) := by
  have hread : castleVersionTreeRead N slaves img (fuel + 1) sb.fwdTreeBlk = some (0, none) :=
    castleVersionTreeRead_bad_header hcs hok hbad
  refine ⟨hread, ?_⟩
  rw [castleFsInit_of_loop hinit hloop, hread]
  rfl

/-- A valid filesystem superblock naming block `2` of slave `7` as the version tree's root. -/
def goodSuper : FsSuperblock :=
  ⟨0x19731121, 0x19880624, 0x19821120, 0, 0, 7, 2, 0, 0, 0, 0, 0, 0⟩

/-- One slave, uuid `7`, with a valid superblock and a version-tree root whose header claims
`9` slots. -/
def badRootImage : Image where
  headerErr _ := 0
  header _ := ⟨9, 0⟩
  slotsErr _ _ := 0
  slot _ _ := .leaf 0 ⟨7, 3⟩
  superErr _ := 0
  superblock _ := goodSuper

/-- With `VTREE_NODE_SLOTS = 8`, from the state the module starts in. -/
theorem fs_init_accepts_bad_vtree_header_example :
    castleVersionTreeRead 8 [⟨7⟩] badRootImage 1 goodSuper.fwdTreeBlk = some (0, none) ∧
      castleFsInit 8 [⟨7⟩] badRootImage 1 ⟨false, zeroSuper⟩ = some (0, ⟨true, goodSuper⟩) :=
  fs_init_accepts_bad_vtree_header rfl rfl rfl rfl (by decide)

end init

end Main
end Castle
