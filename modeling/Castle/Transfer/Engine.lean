import Castle.Cache

/-!
# The transfer engine

`castle_transfer.c` moves the blocks a version's forward tree references onto a destination
set of slaves.  The forward-tree iterator (outside `src/`) calls back, node by node,
`castle_transfer_node_start`, `castle_transfer_each` for every leaf entry and
`castle_transfer_node_end`, and goes on to the next node when `castle_ftree_iter_continue` is
called.  `castle_move_block` leaves a block already on the destination set in place and
otherwise takes a destination block, raises the transfer's `phase` and reads the source; the
copy callback `castle_do_transfer_callback` copies, frees the source and lowers `phase`.  The
node's own unit of `phase`, taken at `node_start`, is released at `node_end`; whoever brings
`phase` to `0` continues the iteration.

The model is a state machine driven by the environment: the iterator delivering its next
callback (with the free-space allocator's and the cache's answers for a leaf entry) and the
completion of any outstanding read, in any order.  Its trace records the callbacks and what the
code does (the pages it takes and releases, the calls it makes to the iterator, the allocator and
the copy), newest first.

Every reachable state satisfies the phase invariant `Inv` (`reachable_inv`): `phase` counts
the open node, the reads in flight and the reads that failed.  From it: the iterator is
continued at most once per node, only after the node's end and the copy callbacks of all its
moves, and in a run without failures exactly once per node, with progress grown by the node's
entries (`transfer_node_barrier`).  A failed read keeps its unit of `phase` for ever, so the
transfer never continues after one; but every failure cancels the iterator, twice for two
failed reads (`transfer_cancel_once_per_failure`, `transfer_double_read_failure`).  The copy
callback frees the source block while the forward tree still references it: nothing in the
transfer updates the tree (`transfer_frees_referenced_block`).  A failed read returns from the
callback with its source and destination pages still taken and locked, and nothing releases
them later (`transfer_read_failure_keeps_pages`).
-/

namespace Castle
namespace Transfer

/-! ## Configuration -/

/-- `CASTLE_TRANSFER_TO_TARGET`, `CASTLE_TRANSFER_TO_REGION`. -/
inductive Direction
  | toTarget
  | toRegion
deriving DecidableEq, Repr

/-- A `struct castle_region`: its slave's uuid, version and length. -/
structure Region where
  slave : Nat
  version : Nat
  length : Nat
deriving DecidableEq, Repr

/-- What a transfer works on: its direction and regions (`castle_transfer_create`), whether
each slave's superblock carries `CASTLE_SLAVE_TARGET`, and, modelled from the spec, the forward
tree the iterator walks: the leaf entries of each node, in the order it visits the nodes. -/
structure Config where
  direction : Direction
  regions : List Region
  slaveTarget : Nat → Bool
  tree : List (List Cdb)

/-- Modelled from the spec: the free-space allocator's answers at one call of
`castle_transfer_get_destination` (`castle_freespace_block_get`,
`castle_freespace_blks_for_version_get(slave, version)`,
`castle_freespace_slave_block_get(slave, version)`; `none` is `INVAL_DISK_BLK`). -/
structure FreeSpace where
  blockGet : Option Cdb
  blksForVersion : Nat → Nat → Nat
  slaveBlockGet : Nat → Nat → Option Cdb

/-- `castle_transfer_is_block_on_correct_disk`. -/
def castleTransferIsBlockOnCorrectDisk (cfg : Config) (cdb : Cdb) : Bool :=
  match cfg.direction with
  | .toTarget => cfg.slaveTarget cdb.disk
  | .toRegion => cfg.regions.any fun region => region.slave = cdb.disk

/-- The region loop of `castle_transfer_get_destination`: the first region under its quota
whose slave gives a block. -/
def regionDestination (fs : FreeSpace) : List Region → Option Cdb
  | [] => none
  | region :: regions =>
    if fs.blksForVersion region.slave region.version ≥ region.length then
      regionDestination fs regions
    else match fs.slaveBlockGet region.slave region.version with
      | some cdb => some cdb
      | none => regionDestination fs regions

/-- `castle_transfer_get_destination`; `none` is `INVAL_DISK_BLK`. -/
def castleTransferGetDestination (cfg : Config) (fs : FreeSpace) : Option Cdb :=
  match cfg.direction with
  | .toTarget => fs.blockGet
  | .toRegion => regionDestination fs cfg.regions

/-! ## State -/

/-- Modelled from the spec: where the forward-tree iterator is.  `ready k`: node `k` is next
(the walk is over when there is no node `k`); `inNode k j`: `node_start` of node `k` and `j`
of its entries delivered; `waiting k`: its `node_end` delivered, until the iterator is
continued. -/
inductive IterPos
  | ready (k : Nat)
  | inNode (k j : Nat)
  | waiting (k : Nat)
deriving DecidableEq, Repr

/-- The node the iterator is at. -/
def IterPos.node : IterPos → Nat
  | .ready k | .inNode k _ | .waiting k => k

/-- What the trace records: the iterator's callbacks and the completions of reads (for node
`k`), and what the code does: a page taken (`castle_cache_page_get` and `lock_c2p`) or released
(`unlock_c2p` and `put_c2p`), the result of `castle_transfer_get_destination`, a move taking a
unit of `phase`, a read submitted, a copy, a block freed, progress, and the calls of
`castle_ftree_iter_cancel` and `castle_ftree_iter_continue`. -/
inductive Act
  | nodeStart (k : Nat)
  | each (k : Nat) (cdb : Cdb)
  | nodeEnd (k : Nat)
  | pageGet (page : Cdb)
  | pagePut (page : Cdb)
  | destination (k : Nat) (dest : Option Cdb)
  | moveStart (k : Nat) (src dest : Cdb)
  | submit (src : Cdb)
  | callback (k : Nat) (uptodate : Bool)
  | copy (src dest : Cdb)
  | free (cdb : Cdb)
  | progress (k : Nat)
  | cancel (err : Int)
  | continue (k : Nat)
deriving DecidableEq, Repr

/-- A transfer's state: `phase`, `progress`, the iterator, the reads in flight (the node that
started the move, source and destination) and the trace. -/
structure State where
  phase : Int
  progress : Nat
  iter : IterPos
  inflight : List (Nat × Cdb × Cdb)
  trace : List Act

/-- `castle_transfer_start`: `phase` `0` (`progress` `0` from `kzalloc`), the iterator at the
first node. -/
def init : State := ⟨0, 0, .ready 0, [], []⟩

/-! ## The callbacks -/

/-- `-ENOMEM`, `-EIO`. -/
def enomem : Int := -12
def eio : Int := -5

/-- `castle_ftree_iter_continue`: the iterator leaves a node whose end it delivered. -/
def castleFtreeIterContinue (s : State) : State :=
  match s.iter with
  | .waiting k => { s with iter := .ready (k + 1), trace := .continue k :: s.trace }
  | it => { s with trace := .continue it.node :: s.trace }

/-- `atomic_dec_and_test(&transfer->phase)`, continuing the iterator at `0`. -/
def phaseDecAndContinue (s : State) : State :=
  let s := { s with phase := s.phase - 1 }
  if s.phase = 0 then castleFtreeIterContinue s else s

/-- `castle_do_transfer_callback` for a move of node `k` from `src` to `dest`. -/
def castleDoTransferCallback (k : Nat) (src dest : Cdb) (uptodate : Bool) (s : State) : State :=
  let s := { s with trace := .callback k uptodate :: s.trace }
  if !uptodate then { s with trace := .cancel eio :: s.trace } else
  phaseDecAndContinue
    { s with
      progress := s.progress + 1
      trace := .progress k :: .free src :: .pagePut dest :: .pagePut src :: .copy src dest :: s.trace }

/-- `castle_move_block` for entry `cdb` of node `k`, with the allocator's answers and whether
the source page is up to date. -/
def castleMoveBlock (cfg : Config) (k : Nat) (cdb : Cdb) (fs : FreeSpace) (uptodate : Bool)
    (s : State) : State :=
  if castleTransferIsBlockOnCorrectDisk cfg cdb then
    { s with progress := s.progress + 1, trace := .progress k :: s.trace }
  else
    let s := { s with trace := .pageGet cdb :: s.trace }
    let dest := castleTransferGetDestination cfg fs
    let s := { s with trace := .destination k dest :: s.trace }
    match dest with
    | none => { s with trace := .cancel enomem :: .pagePut cdb :: s.trace }
    | some dest =>
      let s := { s with phase := s.phase + 1, trace := .moveStart k cdb dest :: .pageGet dest :: s.trace }
      if !uptodate then
        { s with inflight := s.inflight ++ [(k, cdb, dest)], trace := .submit cdb :: s.trace }
      else castleDoTransferCallback k cdb dest true s

/-- `castle_transfer_node_start`; `none` is its `BUG_ON` (`phase` not `0`). -/
def castleTransferNodeStart (s : State) : Option State :=
  if s.phase ≠ 0 then none else some { s with phase := s.phase + 1 }

/-- `castle_transfer_node_end`. -/
def castleTransferNodeEnd (s : State) : State := phaseDecAndContinue s

/-! ## Runs -/

/-- What the environment does next: the iterator delivers its next callback (with the answers
of the allocator and of the cache for a leaf entry), or the `i`-th read in flight completes. -/
inductive Ev
  | iterNext (fs : FreeSpace) (uptodate : Bool)
  | readEnd (i : Nat) (uptodate : Bool)

/-- One step; `none` is a `BUG`.  An iterator waiting to be continued, or at the end of the
walk, and a read that is not in flight, do nothing. -/
def step (cfg : Config) (s : State) : Ev → Option State
  | .iterNext fs uptodate =>
    match s.iter with
    | .ready k =>
      if k < cfg.tree.length then
        castleTransferNodeStart { s with iter := .inNode k 0, trace := .nodeStart k :: s.trace }
      else some s
    | .inNode k j =>
      match (cfg.tree.getD k [])[j]? with
      | some cdb =>
        some (castleMoveBlock cfg k cdb fs uptodate
          { s with iter := .inNode k (j + 1), trace := .each k cdb :: s.trace })
      | none => some (castleTransferNodeEnd { s with iter := .waiting k, trace := .nodeEnd k :: s.trace })
    | .waiting _ => some s
  | .readEnd i uptodate =>
    match s.inflight[i]? with
    | some (k, src, dest) =>
      some (castleDoTransferCallback k src dest uptodate { s with inflight := s.inflight.eraseIdx i })
    | none => some s

/-- A run of events from a state. -/
def run (cfg : Config) : State → List Ev → Option State
  | s, [] => some s
  | s, e :: es => (step cfg s e).bind fun s => run cfg s es

/-- The states a transfer reaches from `castle_transfer_start`. -/
def Reachable (cfg : Config) (s : State) : Prop := ∃ evs, run cfg init evs = some s

/-! ## Reading the trace -/

namespace Act

/-- The node an act belongs to. -/
def tag : Act → Option Nat
  | .nodeStart k | .each k _ | .nodeEnd k | .destination k _ | .moveStart k _ _ | .callback k _
  | .progress k | .continue k => some k
  | .pageGet _ | .pagePut _ | .submit _ | .copy _ _ | .free _ | .cancel _ => none

/-- The node a call of `castle_ftree_iter_continue` continued. -/
def continued : Act → Option Nat
  | .continue k => some k
  | _ => none

@[simp] def isEach (k : Nat) : Act → Bool
  | .each k' _ => k' == k
  | _ => false

@[simp] def isProgress (k : Nat) : Act → Bool
  | .progress k' => k' == k
  | _ => false

@[simp] def isDestination (k : Nat) : Act → Bool
  | .destination k' _ => k' == k
  | _ => false

@[simp] def isDestNone (k : Nat) : Act → Bool
  | .destination k' none => k' == k
  | _ => false

@[simp] def isMoveStart (k : Nat) : Act → Bool
  | .moveStart k' _ _ => k' == k
  | _ => false

@[simp] def isCallback (k : Nat) (b : Bool) : Act → Bool
  | .callback k' b' => k' == k && b' == b
  | _ => false

/-- A read reported failed to the copy callback. -/
@[simp] def isReadFailure : Act → Bool
  | .callback _ false => true
  | _ => false

/-- `castle_transfer_get_destination` found no block. -/
@[simp] def isAllocFailure : Act → Bool
  | .destination _ none => true
  | _ => false

@[simp] def isCancel : Act → Bool
  | .cancel _ => true
  | _ => false

@[simp] def isAnyProgress : Act → Bool
  | .progress _ => true
  | _ => false

@[simp] def isPageGet : Act → Bool
  | .pageGet _ => true
  | _ => false

@[simp] def isPagePut : Act → Bool
  | .pagePut _ => true
  | _ => false

/-- An allocation failure or a failed read. -/
def isFailure (a : Act) : Bool := a.isReadFailure || a.isAllocFailure

end Act

/-- The nodes continued so far, newest first. -/
def continuedNodes (trace : List Act) : List Nat := trace.filterMap Act.continued

/-! ## The phase invariant -/

/-- The unit of `phase` the open node holds. -/
def IterPos.openUnit : IterPos → Nat
  | .inNode _ _ => 1
  | _ => 0

/-- Whether the node the iterator is at has started. -/
def IterPos.started : IterPos → Bool
  | .ready _ => false
  | _ => true

/-- How many entries of its node the iterator has delivered. -/
def IterPos.delivered (cfg : Config) : IterPos → Nat
  | .ready _ => 0
  | .inNode _ j => j
  | .waiting k => (cfg.tree.getD k []).length

/-- A node the iterator has gone past: its end ran, every move started for it went through the
copy, none of its reads failed, and each of its entries was left in place or found no
destination. -/
structure NodeClosed (cfg : Config) (trace : List Act) (k : Nat) : Prop where
  ended : Act.nodeEnd k ∈ trace
  copied : trace.countP (Act.isMoveStart k) = trace.countP (Act.isCallback k true)
  noReadFailure : trace.countP (Act.isCallback k false) = 0
  entries : trace.countP (Act.isProgress k) + trace.countP (Act.isDestNone k) =
    (cfg.tree.getD k []).length

/-- The bookkeeping of a transfer, which holds also in the middle of a callback.  `phase` is the
open node's unit, the reads in flight and the reads that failed; the iterator has been continued
once for each node before its own, and those nodes are closed; every act belongs to a node up to
the iterator's; for the iterator's node, every move started has been called back or is in flight,
and every entry delivered has been left in place (progress without a copy) or given a
destination, found or not; and a block read or freed is an entry of the tree off the destination
set. -/
structure InvCore (cfg : Config) (s : State) : Prop where
  phase : s.phase = s.iter.openUnit + s.inflight.length + s.trace.countP Act.isReadFailure
  continues : continuedNodes s.trace = (List.range s.iter.node).reverse
  ready : ∀ k, s.iter = .ready k → s.inflight = [] ∧ s.trace.countP Act.isReadFailure = 0
  inflightNode : ∀ m ∈ s.inflight, m.1 = s.iter.node
  inflightSrc : ∀ m ∈ s.inflight,
    m.2.1 ∈ cfg.tree.getD m.1 [] ∧ castleTransferIsBlockOnCorrectDisk cfg m.2.1 = false
  tags : ∀ a ∈ s.trace, ∀ k, a.tag = some k → k < s.iter.node ∨ (k = s.iter.node ∧ s.iter.started)
  readFailures : s.trace.countP Act.isReadFailure = s.trace.countP (Act.isCallback s.iter.node false)
  moves : s.trace.countP (Act.isMoveStart s.iter.node) = s.trace.countP (Act.isCallback s.iter.node true) +
    s.trace.countP (Act.isCallback s.iter.node false) + s.inflight.length
  eaches : s.trace.countP (Act.isEach s.iter.node) + s.trace.countP (Act.isCallback s.iter.node true) =
    s.trace.countP (Act.isProgress s.iter.node) + s.trace.countP (Act.isDestination s.iter.node)
  dests : s.trace.countP (Act.isDestination s.iter.node) =
    s.trace.countP (Act.isDestNone s.iter.node) + s.trace.countP (Act.isMoveStart s.iter.node)
  delivered : s.trace.countP (Act.isEach s.iter.node) = s.iter.delivered cfg
  inNode : ∀ k j, s.iter = .inNode k j → j ≤ (cfg.tree.getD k []).length
  nodeEnds : ∀ k, Act.nodeEnd k ∈ s.trace → k < s.iter.node ∨ s.iter = .waiting k
  waitingEnd : ∀ k, s.iter = .waiting k → Act.nodeEnd k ∈ s.trace
  progress : s.progress = s.trace.countP Act.isAnyProgress
  cancels : s.trace.countP Act.isCancel =
    s.trace.countP Act.isAllocFailure + s.trace.countP Act.isReadFailure
  closed : ∀ k < s.iter.node, NodeClosed cfg s.trace k
  freed : ∀ cdb, Act.free cdb ∈ s.trace →
    (∃ k, cdb ∈ cfg.tree.getD k []) ∧ castleTransferIsBlockOnCorrectDisk cfg cdb = false

/-- What every reachable state satisfies: the bookkeeping, and an iterator waiting for its
continuation still has units of `phase` out (whoever releases the last one continues it). -/
structure Inv (cfg : Config) (s : State) extends InvCore cfg s : Prop where
  waiting : ∀ k, s.iter = .waiting k → s.phase ≠ 0

theorem init_inv (cfg : Config) : Inv cfg init where
  phase := rfl
  continues := rfl
  ready _ _ := ⟨rfl, rfl⟩
  inflightNode _ h := by cases h
  inflightSrc _ h := by cases h
  tags _ h := by cases h
  readFailures := rfl
  moves := rfl
  eaches := rfl
  dests := rfl
  delivered := rfl
  inNode _ _ h := by cases h
  nodeEnds _ h := by cases h
  waitingEnd _ h := by cases h
  progress := rfl
  cancels := rfl
  closed _ h := absurd h (Nat.not_lt_zero _)
  freed _ h := by cases h
  waiting _ h := by cases h

@[simp] theorem continuedNodes_cons (a : Act) (trace : List Act) :
    continuedNodes (a :: trace) = (a.continued.map fun k => [k]).getD [] ++ continuedNodes trace := by
  cases a <;> simp [continuedNodes, Act.continued, List.filterMap_cons]

theorem mem_continuedNodes {trace : List Act} {k : Nat} :
    k ∈ continuedNodes trace ↔ Act.continue k ∈ trace := by
  simp only [continuedNodes, List.mem_filterMap]
  constructor
  · rintro ⟨a, ha, h⟩
    cases a <;> simp only [Act.continued, Option.some.injEq, reduceCtorEq] at h
    exact h ▸ ha
  · exact fun h => ⟨_, h, rfl⟩

/-- No act of node `m` in the trace: every count for `m` is `0`. -/
theorem countP_eq_zero_of_tag {trace : List Act} {p : Act → Bool} {m : Nat}
    (hp : ∀ a, p a = true → a.tag = some m) (h : ∀ a ∈ trace, a.tag ≠ some m) :
    trace.countP p = 0 :=
  List.countP_eq_zero.mpr fun a ha hpa => h a ha (hp a hpa)

section tags

variable {k : Nat} {a : Act}

theorem Act.tag_of_isEach (h : a.isEach k = true) : a.tag = some k := by
  cases a <;> simp_all [Act.tag]
theorem Act.tag_of_isProgress (h : a.isProgress k = true) : a.tag = some k := by
  cases a <;> simp_all [Act.tag]
theorem Act.tag_of_isDestination (h : a.isDestination k = true) : a.tag = some k := by
  cases a <;> simp_all [Act.tag]
theorem Act.tag_of_isDestNone (h : a.isDestNone k = true) : a.tag = some k := by
  cases a with
  | destination k' d => cases d <;> simp_all [Act.tag]
  | _ => simp_all [Act.tag]
theorem Act.tag_of_isMoveStart (h : a.isMoveStart k = true) : a.tag = some k := by
  cases a <;> simp_all [Act.tag]
theorem Act.tag_of_isCallback (b : Bool) (h : a.isCallback k b = true) : a.tag = some k := by
  cases a <;> simp_all [Act.tag]

end tags

/-- Nothing of node `m` in the trace: every count of `m` is `0`. -/
theorem counts_fresh {trace : List Act} {m : Nat} (h : ∀ a ∈ trace, a.tag ≠ some m) :
    trace.countP (Act.isEach m) = 0 ∧ trace.countP (Act.isProgress m) = 0 ∧
    trace.countP (Act.isDestination m) = 0 ∧ trace.countP (Act.isDestNone m) = 0 ∧
    trace.countP (Act.isMoveStart m) = 0 ∧ trace.countP (Act.isCallback m true) = 0 ∧
    trace.countP (Act.isCallback m false) = 0 :=
  ⟨countP_eq_zero_of_tag (fun _ => Act.tag_of_isEach) h,
    countP_eq_zero_of_tag (fun _ => Act.tag_of_isProgress) h,
    countP_eq_zero_of_tag (fun _ => Act.tag_of_isDestination) h,
    countP_eq_zero_of_tag (fun _ => Act.tag_of_isDestNone) h,
    countP_eq_zero_of_tag (fun _ => Act.tag_of_isMoveStart) h,
    countP_eq_zero_of_tag (fun _ => Act.tag_of_isCallback true) h,
    countP_eq_zero_of_tag (fun _ => Act.tag_of_isCallback false) h⟩

/-- A closed node stays closed under acts of other nodes. -/
theorem NodeClosed.push {cfg : Config} {trace : List Act} {k : Nat} (h : NodeClosed cfg trace k)
    (new : List Act) (hnew : ∀ a ∈ new, a.tag ≠ some k) : NodeClosed cfg (new ++ trace) k := by
  obtain ⟨-, e2, -, e4, e5, e6, e7⟩ := counts_fresh hnew
  exact ⟨List.mem_append_right _ h.ended, by simp [e5, e6, h.copied],
    by simp [e7, h.noReadFailure], by simp [e2, e4, h.entries]⟩

/-- A continue counts for no node. -/
theorem NodeClosed.cons_continue {cfg : Config} {trace : List Act} {k : Nat}
    (h : NodeClosed cfg trace k) (m : Nat) : NodeClosed cfg (.continue m :: trace) k :=
  ⟨List.mem_cons_of_mem _ h.ended, by simp [h.copied], by simp [h.noReadFailure],
    by simp [h.entries]⟩

/-! ## The steps keep the invariant -/

section steps

variable {cfg : Config} {s : State}

theorem InvCore.fresh (hs : InvCore cfg s) {k : Nat} (h : s.iter = .ready k) :
    ∀ a ∈ s.trace, a.tag ≠ some k := by
  intro a ha hk
  rcases hs.tags a ha k hk with h1 | ⟨-, h2⟩ <;> simp_all [IterPos.node, IterPos.started]

/-- The counts of the invariant, read at the iterator's position `it`. -/
theorem InvCore.counts (hs : InvCore cfg s) {it : IterPos} (hit : s.iter = it) :
    s.phase = it.openUnit + s.inflight.length + s.trace.countP Act.isReadFailure ∧
    s.trace.countP Act.isReadFailure = s.trace.countP (Act.isCallback it.node false) ∧
    s.trace.countP (Act.isMoveStart it.node) = s.trace.countP (Act.isCallback it.node true) +
      s.trace.countP (Act.isCallback it.node false) + s.inflight.length ∧
    s.trace.countP (Act.isEach it.node) + s.trace.countP (Act.isCallback it.node true) =
      s.trace.countP (Act.isProgress it.node) + s.trace.countP (Act.isDestination it.node) ∧
    s.trace.countP (Act.isDestination it.node) =
      s.trace.countP (Act.isDestNone it.node) + s.trace.countP (Act.isMoveStart it.node) ∧
    s.trace.countP (Act.isEach it.node) = it.delivered cfg := by
  subst hit
  exact ⟨hs.phase, hs.readFailures, hs.moves, hs.eaches, hs.dests, hs.delivered⟩

/-- Pushing acts of the iterator's own node, none a continue, keeps the tags, the continued
nodes, the node ends and the closed nodes. -/
theorem InvCore.push (hs : InvCore cfg s) (new : List Act) (iter : IterPos)
    (hnode : iter.node = s.iter.node) (hst : iter.started = true)
    (htag : ∀ a ∈ new, a.tag = none ∨ a.tag = some s.iter.node)
    (hcont : continuedNodes new = []) (hend : ∀ k, Act.nodeEnd k ∈ new → iter = .waiting k)
    (hwait : ∀ k, s.iter = .waiting k → iter = .waiting k) :
    (∀ a ∈ new ++ s.trace, ∀ k, a.tag = some k → k < iter.node ∨ (k = iter.node ∧ iter.started)) ∧
    continuedNodes (new ++ s.trace) = (List.range iter.node).reverse ∧
    (∀ k, Act.nodeEnd k ∈ new ++ s.trace → k < iter.node ∨ iter = .waiting k) ∧
    (∀ k < iter.node, NodeClosed cfg (new ++ s.trace) k) := by
  refine ⟨fun a ha k hk => ?_, ?_, fun k hk => ?_, fun k hk => ?_⟩
  · rw [hnode, hst]
    rcases List.mem_append.mp ha with ha | ha
    · rcases htag a ha with h | h <;> simp_all
    · rcases hs.tags a ha k hk with h | ⟨h, -⟩ <;> simp [h]
  · rw [continuedNodes, List.filterMap_append, ← continuedNodes, ← continuedNodes, hcont,
      hs.continues, hnode]
    rfl
  · rcases List.mem_append.mp hk with hk | hk
    · exact Or.inr (hend k hk)
    · rcases hs.nodeEnds k hk with h | h
      · exact Or.inl (hnode ▸ h)
      · exact Or.inr (hwait k h)
  · rw [hnode] at hk
    refine (hs.closed k hk).push new fun a ha h => ?_
    rcases htag a ha with h' | h' <;> rw [h'] at h <;> simp at h
    omega

/-- A step that stays in the iterator's started node: the iterator keeps its place or moves on
to the node's next entry, the acts pushed are of the node or of no node and continue and end
nothing, a read in flight is an old one or a read of the node off the destination set, and a
block freed is an entry of the tree off that set.  The bookkeeping then holds as soon as its
counts do. -/
theorem InvCore.within (hs : InvCore cfg s) {s' : State} (new : List Act) (hst : s.iter.started = true)
    (hiter : s'.iter = s.iter ∨
      ∃ k j, s.iter = .inNode k j ∧ s'.iter = .inNode k (j + 1) ∧ j < (cfg.tree.getD k []).length)
    (htrace : s'.trace = new ++ s.trace) (htag : ∀ a ∈ new, a.tag = none ∨ a.tag = some s.iter.node)
    (hcont : continuedNodes new = []) (hend : ∀ k, Act.nodeEnd k ∉ new)
    (hinf : ∀ m ∈ s'.inflight, m ∈ s.inflight ∨ m.1 = s.iter.node ∧ m.2.1 ∈ cfg.tree.getD m.1 [] ∧
      castleTransferIsBlockOnCorrectDisk cfg m.2.1 = false)
    (hfree : ∀ c, Act.free c ∈ new →
      (∃ k, c ∈ cfg.tree.getD k []) ∧ castleTransferIsBlockOnCorrectDisk cfg c = false)
    (hphase : s'.phase = s'.iter.openUnit + s'.inflight.length + s'.trace.countP Act.isReadFailure)
    (hrf : s'.trace.countP Act.isReadFailure = s'.trace.countP (Act.isCallback s.iter.node false))
    (hmv : s'.trace.countP (Act.isMoveStart s.iter.node) = s'.trace.countP (Act.isCallback s.iter.node true) +
      s'.trace.countP (Act.isCallback s.iter.node false) + s'.inflight.length)
    (hea : s'.trace.countP (Act.isEach s.iter.node) + s'.trace.countP (Act.isCallback s.iter.node true) =
      s'.trace.countP (Act.isProgress s.iter.node) + s'.trace.countP (Act.isDestination s.iter.node))
    (hde : s'.trace.countP (Act.isDestination s.iter.node) =
      s'.trace.countP (Act.isDestNone s.iter.node) + s'.trace.countP (Act.isMoveStart s.iter.node))
    (hdl : s'.trace.countP (Act.isEach s.iter.node) = s'.iter.delivered cfg)
    (hprog : s'.progress = s'.trace.countP Act.isAnyProgress)
    (hcan : s'.trace.countP Act.isCancel =
      s'.trace.countP Act.isAllocFailure + s'.trace.countP Act.isReadFailure) : InvCore cfg s' := by
  obtain ⟨hnode, hst', hwait, hwait', hin⟩ : s'.iter.node = s.iter.node ∧ s'.iter.started = true ∧
      (∀ k, s.iter = .waiting k → s'.iter = .waiting k) ∧
      (∀ k, s'.iter = .waiting k → s.iter = .waiting k) ∧
      ∀ k j, s'.iter = .inNode k j → j ≤ (cfg.tree.getD k []).length := by
    rcases hiter with h | ⟨k, j, h1, h2, hj⟩
    · rw [h]
      exact ⟨rfl, hst, fun _ => id, fun _ => id, hs.inNode⟩
    · rw [h1, h2]
      exact ⟨rfl, rfl, (fun _ h => by cases h), (fun _ h => by cases h), fun _ _ h => by cases h; omega⟩
  obtain ⟨htags, hcont', hends, hclosed⟩ :=
    hs.push new s'.iter hnode hst' htag hcont (fun k h => absurd h (hend k)) hwait
  rw [← htrace] at htags hcont' hends hclosed
  rw [← hnode] at hrf hmv hea hde hdl
  exact
    { phase := hphase, continues := hcont'
      ready := fun k h => by rw [h] at hst'; cases hst'
      inflightNode := fun m hm => (hinf m hm).elim (fun h => hnode ▸ hs.inflightNode m h) (hnode ▸ ·.1)
      inflightSrc := fun m hm => (hinf m hm).elim (hs.inflightSrc m) (·.2)
      tags := htags, readFailures := hrf, moves := hmv, eaches := hea, dests := hde, delivered := hdl
      inNode := hin, nodeEnds := hends
      waitingEnd := fun k h => htrace ▸ List.mem_append_right _ (hs.waitingEnd k (hwait' k h))
      progress := hprog, cancels := hcan, closed := hclosed
      freed := fun c h => (List.mem_append.mp (htrace ▸ h)).elim (hfree c) (hs.freed c) }

/-- `node_start` of node `k`: the node takes its unit of `phase`; nothing of it is in the trace
yet. -/
theorem inv_nodeStart (hs : Inv cfg s) {k : Nat} (hready : s.iter = .ready k)
    (hphase : s.phase = 0) :
    Inv cfg { s with phase := s.phase + 1, iter := .inNode k 0, trace := .nodeStart k :: s.trace } := by
  obtain ⟨hinf, hfail⟩ := hs.ready k hready
  obtain ⟨e1, e2, e3, e4, e5, e6, e7⟩ := counts_fresh (hs.fresh hready)
  have hnode : s.iter.node = k := by rw [hready]; rfl
  obtain ⟨htags, hcont, hends, hclosed⟩ := hs.push [.nodeStart k] (.inNode k 0) hnode.symm rfl
    (by simp [Act.tag, hnode]) (by simp [continuedNodes, Act.continued]) (by simp)
    (by rw [hready]; intro _ h; cases h)
  refine
    { phase := ?_, continues := hcont, ready := (fun _ h => by cases h), inflightNode := (by simp [hinf]),
      inflightSrc := (by simp [hinf]), tags := htags, readFailures := ?_, moves := ?_, eaches := ?_,
      dests := ?_, delivered := ?_, inNode := (fun _ _ h => by cases h; exact Nat.zero_le _),
      nodeEnds := hends, waitingEnd := (fun _ h => by cases h), progress := ?_, cancels := ?_,
      closed := hclosed, freed := (fun cdb h => hs.freed cdb (by simpa using h)),
      waiting := (fun _ h => by cases h) } <;>
    simp [IterPos.node, IterPos.openUnit, IterPos.delivered, e1, e2, e3, e4, e5, e6, e7, hinf, hfail,
      hphase, hs.progress, hs.cancels]

/-- Continuing from the end of node `k` with `phase` back at `0`: the iterator is at node
`k + 1`, of which nothing is in the trace yet, and node `k` is closed. -/
theorem inv_continue (hs : InvCore cfg s) {k : Nat} (hk : s.iter = .waiting k) (h0 : s.phase = 0) :
    Inv cfg (castleFtreeIterContinue s) := by
  have hnode : s.iter.node = k := by rw [hk]; rfl
  obtain ⟨hph, hrf, hmv, hea, hde, hdl⟩ := hs.counts hk
  simp only [IterPos.openUnit, IterPos.delivered, IterPos.node] at hph hrf hmv hea hde hdl
  have hinf : s.inflight = [] := List.eq_nil_of_length_eq_zero (by omega)
  have hfail : s.trace.countP Act.isReadFailure = 0 := by omega
  have hle : ∀ a ∈ Act.continue k :: s.trace, ∀ k', a.tag = some k' → k' < k + 1 := by
    intro a ha k' hk'
    rcases List.mem_cons.mp ha with rfl | ha
    · simp only [Act.tag, Option.some.injEq] at hk'
      omega
    · rcases hs.tags a ha k' hk' with h | ⟨h, -⟩ <;> omega
  obtain ⟨e1, e2, e3, e4, e5, e6, e7⟩ :=
    counts_fresh fun a ha h => Nat.lt_irrefl _ (hle a (List.mem_cons_of_mem _ ha) (k + 1) h)
  have hclosed : NodeClosed cfg s.trace k :=
    ⟨hs.waitingEnd k hk, by simp only [hmv, hinf, List.length_nil]; omega, by omega, by omega⟩
  rw [castleFtreeIterContinue, hk]
  refine
    { phase := by simp [IterPos.openUnit, h0, hinf, hfail]
      continues := by
        rw [continuedNodes_cons, hs.continues, hnode]
        simp [IterPos.node, Act.continued, List.range_succ]
      ready := fun _ _ => ⟨hinf, by simp [hfail]⟩
      inflightNode := by simp [hinf]
      inflightSrc := by simp [hinf]
      tags := fun a ha k' hk' => Or.inl (hle a ha k' hk')
      readFailures := ?_, moves := ?_, eaches := ?_, dests := ?_, delivered := ?_
      inNode := fun _ _ h => by cases h
      nodeEnds := fun k' hk' => by
        rcases List.mem_cons.mp hk' with h | h
        · cases h
        · rcases hs.nodeEnds k' h with h | h
          · exact Or.inl (by simp only [IterPos.node]; omega)
          · rw [hk] at h; cases h; exact Or.inl (Nat.lt_succ_self _)
      waitingEnd := fun _ h => by cases h
      progress := by simp [hs.progress]
      cancels := by simp [hs.cancels]
      closed := fun k' hk' => (Nat.lt_succ_iff_lt_or_eq.mp hk').elim
        (fun h => (hs.closed k' (hnode ▸ h)).cons_continue k) (fun h => h ▸ hclosed.cons_continue k)
      freed := fun cdb h => hs.freed cdb (by simpa using h)
      waiting := fun _ h => by cases h } <;>
    simp [IterPos.node, IterPos.delivered, e1, e2, e3, e4, e5, e6, e7, hinf, hfail]

/-- `atomic_dec_and_test(&transfer->phase)` and the continue when it hits `0`: from the
bookkeeping of the state with `phase` lowered, at an iterator that has started its node. -/
theorem inv_phaseDecAndContinue (hs : InvCore cfg { s with phase := s.phase - 1 })
    (hnr : ∀ k, s.iter ≠ .ready k) : Inv cfg (phaseDecAndContinue s) := by
  unfold phaseDecAndContinue
  dsimp only
  split_ifs with h0
  · obtain ⟨k, hk⟩ : ∃ k, s.iter = .waiting k := by
      have hph := hs.phase
      dsimp only at hph
      cases h : s.iter with
      | ready k => exact absurd h (hnr k)
      | inNode => rw [h] at hph; simp only [IterPos.openUnit] at hph; omega
      | waiting k => exact ⟨k, rfl⟩
    exact inv_continue hs hk h0
  · exact ⟨hs, fun _ _ => h0⟩

/-- Entry `j` of node `k` delivered and handed to `castle_move_block`. -/
theorem inv_each (hs : Inv cfg s) {k j : Nat} {cdb : Cdb} (fs : FreeSpace) (uptodate : Bool)
    (hin : s.iter = .inNode k j) (hj : (cfg.tree.getD k [])[j]? = some cdb) :
    Inv cfg (castleMoveBlock cfg k cdb fs uptodate
      { s with iter := .inNode k (j + 1), trace := .each k cdb :: s.trace }) := by
  have hnode : s.iter.node = k := by rw [hin]; rfl
  have hst : s.iter.started = true := by rw [hin]; rfl
  have hstep : ∃ k' j', s.iter = .inNode k' j' ∧ IterPos.inNode k (j + 1) = .inNode k' (j' + 1) ∧
      j' < (cfg.tree.getD k' []).length := ⟨k, j, hin, rfl, (List.getElem?_eq_some_iff.mp hj).1⟩
  have hmem : cdb ∈ cfg.tree.getD k [] := List.getElem?_mem hj
  obtain ⟨hph, hrf, hmv, hea, hde, hdl⟩ := hs.counts hin
  simp only [IterPos.openUnit, IterPos.delivered, IterPos.node] at hph hrf hmv hea hde hdl
  unfold castleMoveBlock
  by_cases hcorrect : castleTransferIsBlockOnCorrectDisk cfg cdb
  · -- left in place: progress without a copy
    rw [if_pos hcorrect]
    refine ⟨hs.within [.progress k, .each k cdb] hst (.inr hstep) rfl (by simp [Act.tag, hnode])
      (by simp [continuedNodes, Act.continued]) (by simp) (fun m hm => .inl hm) (by simp)
      ?_ ?_ ?_ ?_ ?_ ?_ ?_ ?_, fun _ h => by cases h⟩ <;>
      simp [hnode, IterPos.openUnit, IterPos.delivered, hs.progress, hs.cancels] <;> omega
  rw [if_neg hcorrect]
  cases hdest : castleTransferGetDestination cfg fs with
  | none =>
    -- no destination: the transfer is cancelled
    refine ⟨hs.within [.cancel enomem, .pagePut cdb, .destination k none, .pageGet cdb, .each k cdb]
      hst (.inr hstep) rfl (by simp [Act.tag, hnode]) (by simp [continuedNodes, Act.continued]) (by simp)
      (fun m hm => .inl hm) (by simp) ?_ ?_ ?_ ?_ ?_ ?_ ?_ ?_, fun _ h => by cases h⟩ <;>
      simp [hnode, IterPos.openUnit, IterPos.delivered, hs.progress, hs.cancels] <;> omega
  | some dest =>
    cases uptodate with
    | false =>
      -- the source is read: the move goes in flight
      refine ⟨hs.within [.submit cdb, .moveStart k cdb dest, .pageGet dest, .destination k (some dest),
        .pageGet cdb, .each k cdb] hst (.inr hstep) rfl (by simp [Act.tag, hnode])
        (by simp [continuedNodes, Act.continued]) (by simp) (fun m hm => ?_) (by simp)
        ?_ ?_ ?_ ?_ ?_ ?_ ?_ ?_, fun _ h => by cases h⟩
      · rcases List.mem_append.mp hm with hm | hm
        · exact .inl hm
        · simp only [List.mem_singleton] at hm
          exact .inr (hm ▸ ⟨hnode.symm, hmem, by simpa using hcorrect⟩)
      all_goals simp [hnode, IterPos.openUnit, IterPos.delivered, hs.progress, hs.cancels] <;> omega
    | true =>
      -- the source is up to date: the copy callback runs at once
      simp only [Bool.not_true, Bool.false_eq_true, if_false, castleDoTransferCallback]
      refine inv_phaseDecAndContinue (hs.within [.progress k, .free cdb, .pagePut dest, .pagePut cdb,
        .copy cdb dest, .callback k true, .moveStart k cdb dest, .pageGet dest,
        .destination k (some dest), .pageGet cdb, .each k cdb] hst (.inr hstep) rfl (by simp [Act.tag, hnode])
        (by simp [continuedNodes, Act.continued]) (by simp) (fun m hm => .inl hm)
        (fun c h => ?_) ?_ ?_ ?_ ?_ ?_ ?_ ?_ ?_) (fun _ h => by cases h)
      · simp only [List.mem_cons, Act.free.injEq, reduceCtorEq, List.not_mem_nil, false_or,
          or_false] at h
        exact h ▸ ⟨⟨k, hmem⟩, by simpa using hcorrect⟩
      all_goals simp [hnode, IterPos.openUnit, IterPos.delivered, hs.progress, hs.cancels] <;> omega

/-- The end of the iterator's node `k`, after its last entry `j`. -/
theorem inv_nodeEnd (hs : Inv cfg s) {k j : Nat} (hin : s.iter = .inNode k j)
    (hj : (cfg.tree.getD k [])[j]? = none) :
    Inv cfg (castleTransferNodeEnd { s with iter := .waiting k, trace := .nodeEnd k :: s.trace }) := by
  have hnode : s.iter.node = k := by rw [hin]; rfl
  have hjeq : j = (cfg.tree.getD k []).length :=
    le_antisymm (hs.inNode k j hin) (List.getElem?_eq_none_iff.mp hj)
  obtain ⟨hph, hrf, hmv, hea, hde, hdl⟩ := hs.counts hin
  simp only [IterPos.openUnit, IterPos.delivered, IterPos.node] at hph hrf hmv hea hde hdl
  obtain ⟨htags, hcont, hends, hclosed⟩ := hs.push [.nodeEnd k] (.waiting k) hnode.symm rfl
    (by simp [Act.tag, hnode]) (by simp [continuedNodes, Act.continued])
    (by simp) (by rw [hin]; intro k' h; cases h)
  exact inv_phaseDecAndContinue
    { phase := by simp [IterPos.openUnit]; omega
      continues := hcont
      ready := fun _ h => by cases h
      inflightNode := fun m hm => by rw [hs.inflightNode m hm, hnode]; rfl
      inflightSrc := hs.inflightSrc
      tags := htags
      readFailures := by simp [IterPos.node, hrf]
      moves := by simp [IterPos.node, hmv]
      eaches := by simp [IterPos.node, hea]
      dests := by simp [IterPos.node, hde]
      delivered := by simp [IterPos.node, IterPos.delivered, hdl, hjeq]
      inNode := fun _ _ h => by cases h
      nodeEnds := hends
      waitingEnd := fun _ h => by cases h; exact List.mem_cons_self _ _
      progress := by simp [hs.progress]
      cancels := by simp [hs.cancels]
      closed := hclosed
      freed := fun c h => hs.freed c (by simpa using h) } (fun _ h => by cases h)

/-- The read of the `i`-th move in flight completes. -/
theorem inv_readEnd (hs : Inv cfg s) {i k : Nat} {src dest : Cdb} (uptodate : Bool)
    (hi : s.inflight[i]? = some (k, src, dest)) :
    Inv cfg (castleDoTransferCallback k src dest uptodate
      { s with inflight := s.inflight.eraseIdx i }) := by
  have hmem : (k, src, dest) ∈ s.inflight := List.getElem?_mem hi
  have hlt : i < s.inflight.length := (List.getElem?_eq_some_iff.mp hi).1
  have hnode : s.iter.node = k := (hs.inflightNode _ hmem).symm
  have hlen : (s.inflight.eraseIdx i).length = s.inflight.length - 1 :=
    List.length_eraseIdx_of_lt hlt
  have hnr : ∀ k', s.iter ≠ .ready k' := fun k' h => by
    have := (hs.ready k' h).1
    simp [this] at hlt
  have hst : s.iter.started = true := by
    cases h : s.iter
    · exact absurd h (hnr _)
    all_goals rfl
  obtain ⟨hph, hrf, hmv, hea, hde, hdl⟩ := hs.counts rfl
  rw [hnode] at hrf hmv hea hde hdl
  cases uptodate with
  | false =>
    -- a failed read cancels the transfer and keeps its unit of `phase`
    simp only [castleDoTransferCallback, Bool.not_false, if_true]
    refine ⟨hs.within [.cancel eio, .callback k false] hst (.inl rfl) rfl (by simp [Act.tag, hnode])
      (by simp [continuedNodes, Act.continued]) (by simp)
      (fun m hm => .inl (List.mem_of_mem_eraseIdx hm)) (by simp) ?_ ?_ ?_ ?_ ?_ ?_ ?_ ?_, hs.waiting⟩ <;>
      simp [hnode, hrf, hea, hde, hdl, hlen, hs.progress, hs.cancels] <;> omega
  | true =>
    -- the copy: the source is freed and the move's unit of `phase` released
    simp only [castleDoTransferCallback, Bool.not_true, Bool.false_eq_true, if_false]
    refine inv_phaseDecAndContinue (hs.within [.progress k, .free src, .pagePut dest, .pagePut src,
      .copy src dest, .callback k true] hst (.inl rfl) rfl (by simp [Act.tag, hnode])
      (by simp [continuedNodes, Act.continued]) (by simp)
      (fun m hm => .inl (List.mem_of_mem_eraseIdx hm)) (fun c h => ?_) ?_ ?_ ?_ ?_ ?_ ?_ ?_ ?_) hnr
    · simp only [List.mem_cons, Act.free.injEq, reduceCtorEq, List.not_mem_nil, false_or,
        or_false] at h
      obtain ⟨h1, h2⟩ := hs.inflightSrc _ hmem
      exact h ▸ ⟨⟨k, h1⟩, h2⟩
    all_goals simp [hnode, hrf, hea, hde, hdl, hlen, hs.progress, hs.cancels] <;> omega

/-! ## Runs -/

/-- What one step does: nothing, `node_start` of the next node, an entry handed to
`castle_move_block`, the end of the node, or the copy callback of a read in flight. -/
theorem step_cases {e : Ev} {s' : State} (h : step cfg s e = some s') :
    s' = s ∨
    (∃ k, s.iter = .ready k ∧ k < cfg.tree.length ∧ s.phase = 0 ∧
      s' = { s with phase := s.phase + 1, iter := .inNode k 0, trace := .nodeStart k :: s.trace }) ∨
    (∃ k j cdb fs uptodate, s.iter = .inNode k j ∧ (cfg.tree.getD k [])[j]? = some cdb ∧
      s' = castleMoveBlock cfg k cdb fs uptodate
        { s with iter := .inNode k (j + 1), trace := .each k cdb :: s.trace }) ∨
    (∃ k j, s.iter = .inNode k j ∧ (cfg.tree.getD k [])[j]? = none ∧
      s' = castleTransferNodeEnd { s with iter := .waiting k, trace := .nodeEnd k :: s.trace }) ∨
    (∃ i k src dest uptodate, s.inflight[i]? = some (k, src, dest) ∧
      s' = castleDoTransferCallback k src dest uptodate
        { s with inflight := s.inflight.eraseIdx i }) := by
  cases e with
  | iterNext fs uptodate =>
    cases hit : s.iter with
    | ready k =>
      simp only [step, hit] at h
      split_ifs at h with hk
      · simp only [castleTransferNodeStart, ne_eq, ite_not] at h
        split_ifs at h with hph
        cases h
        exact .inr (.inl ⟨k, rfl, hk, hph, rfl⟩)
      · exact .inl (Option.some.inj h).symm
    | inNode k j =>
      simp only [step, hit] at h
      cases hj : (cfg.tree.getD k [])[j]? with
      | some cdb =>
        simp only [hj, Option.some.injEq] at h
        exact .inr (.inr (.inl ⟨k, j, cdb, fs, uptodate, rfl, hj, h.symm⟩))
      | none =>
        simp only [hj, Option.some.injEq] at h
        exact .inr (.inr (.inr (.inl ⟨k, j, rfl, hj, h.symm⟩)))
    | waiting k =>
      simp only [step, hit, Option.some.injEq] at h
      exact .inl h.symm
  | readEnd i uptodate =>
    simp only [step] at h
    cases hi : s.inflight[i]? with
    | none =>
      simp only [hi, Option.some.injEq] at h
      exact .inl h.symm
    | some m =>
      obtain ⟨k, src, dest⟩ := m
      simp only [hi, Option.some.injEq] at h
      exact .inr (.inr (.inr (.inr ⟨i, k, src, dest, uptodate, hi, h.symm⟩)))

theorem step_inv (hs : Inv cfg s) {e : Ev} {s' : State} (h : step cfg s e = some s') :
    Inv cfg s' := by
  rcases step_cases h with rfl | ⟨k, hk, -, h0, rfl⟩ | ⟨k, j, cdb, fs, u, hin, hj, rfl⟩ |
    ⟨k, j, hin, hj, rfl⟩ | ⟨i, k, src, dest, u, hi, rfl⟩
  · exact hs
  · exact inv_nodeStart hs hk h0
  · exact inv_each hs fs u hin hj
  · exact inv_nodeEnd hs hin hj
  · exact inv_readEnd hs u hi

theorem run_inv (hs : Inv cfg s) {evs : List Ev} {s' : State} (h : run cfg s evs = some s') :
    Inv cfg s' := by
  induction evs generalizing s with
  | nil =>
    simp only [run, Option.some.injEq] at h
    exact h ▸ hs
  | cons e evs ih =>
    obtain ⟨s1, h1, h2⟩ := Option.bind_eq_some.mp h
    exact ih (step_inv hs h1) h2

theorem reachable_inv (h : Reachable cfg s) : Inv cfg s :=
  let ⟨_, h⟩ := h
  run_inv (init_inv cfg) h

/-- From an invariant state every event is handled: `node_start` finds `phase` at `0`. -/
theorem step_isSome (hs : Inv cfg s) (e : Ev) : (step cfg s e).isSome := by
  cases e with
  | iterNext fs uptodate =>
    cases hit : s.iter with
    | ready k =>
      obtain ⟨hinf, hfail⟩ := hs.ready k hit
      have hph := hs.phase
      rw [hit] at hph
      simp only [IterPos.openUnit, hinf, hfail, List.length_nil] at hph
      simp only [step, hit, castleTransferNodeStart]
      split_ifs <;> simp_all
    | inNode k j =>
      simp only [step, hit]
      split <;> rfl
    | waiting k => simp [step, hit]
  | readEnd i u =>
    simp only [step]
    split <;> rfl

theorem run_isSome (hs : Inv cfg s) (evs : List Ev) : (run cfg s evs).isSome := by
  induction evs generalizing s with
  | nil => rfl
  | cons e evs ih =>
    obtain ⟨s1, h1⟩ := Option.isSome_iff_exists.mp (step_isSome hs e)
    simp only [run, h1, Option.bind_some]
    exact ih (step_inv hs h1)

/-- What a callback does to the trace and the iterator: it only pushes acts, and it only moves
the iterator on to a next node. -/
def Extends (s s' : State) : Prop :=
  s.trace <:+ s'.trace ∧ (s'.iter.node = s.iter.node ∨ ∃ k, s'.iter = .ready k)

theorem Extends.of_push {s₁ s₂ : State} (h₂ : Extends s₁ s₂) (h : s.trace <:+ s₁.trace)
    (hn : s₁.iter.node = s.iter.node) : Extends s s₂ :=
  ⟨h.trans h₂.1, h₂.2.imp (fun h => h.trans hn) id⟩

theorem extends_continue (s : State) : Extends s (castleFtreeIterContinue s) := by
  unfold castleFtreeIterContinue
  split
  · exact ⟨List.suffix_cons _ _, .inr ⟨_, rfl⟩⟩
  · exact ⟨List.suffix_cons _ _, .inl rfl⟩

theorem extends_phaseDecAndContinue (s : State) : Extends s (phaseDecAndContinue s) := by
  unfold phaseDecAndContinue
  dsimp only
  split_ifs
  · exact (extends_continue _).of_push (List.suffix_refl _) rfl
  · exact ⟨List.suffix_refl _, .inl rfl⟩

theorem extends_callback (k : Nat) (src dest : Cdb) (u : Bool) (s : State) :
    Extends s (castleDoTransferCallback k src dest u s) := by
  unfold castleDoTransferCallback
  dsimp only
  split_ifs
  · exact ⟨⟨[_, _], rfl⟩, .inl rfl⟩
  · exact (extends_phaseDecAndContinue _).of_push ⟨[_, _, _, _, _, _], rfl⟩ rfl

theorem extends_moveBlock (k : Nat) (cdb : Cdb) (fs : FreeSpace) (u : Bool) (s : State) :
    Extends s (castleMoveBlock cfg k cdb fs u s) := by
  unfold castleMoveBlock
  dsimp only
  by_cases hc : castleTransferIsBlockOnCorrectDisk cfg cdb
  · rw [if_pos hc]
    exact ⟨⟨[_], rfl⟩, .inl rfl⟩
  · rw [if_neg hc]
    cases castleTransferGetDestination cfg fs with
    | none => exact ⟨⟨[_, _, _, _], rfl⟩, .inl rfl⟩
    | some dest =>
      cases u
      · simp only [Bool.not_false, if_true]
        exact ⟨⟨[_, _, _, _, _], rfl⟩, .inl rfl⟩
      · simp only [Bool.not_true, Bool.false_eq_true, if_false]
        exact (extends_callback _ _ _ _ _).of_push ⟨[_, _, _, _], rfl⟩ rfl

theorem step_extends {e : Ev} {s' : State} (h : step cfg s e = some s') : Extends s s' := by
  rcases step_cases h with rfl | ⟨k, hk, -, -, rfl⟩ | ⟨k, j, cdb, fs, u, hin, -, rfl⟩ |
    ⟨k, j, hin, -, rfl⟩ | ⟨i, k, src, dest, u, -, rfl⟩
  · exact ⟨List.suffix_refl _, .inl rfl⟩
  · exact ⟨⟨[_], rfl⟩, .inl (by rw [hk]; rfl)⟩
  · exact (extends_moveBlock _ _ _ _ _).of_push ⟨[_], rfl⟩ (by rw [hin]; rfl)
  · exact (extends_phaseDecAndContinue _).of_push ⟨[_], rfl⟩ (by rw [hin]; rfl)
  · exact (extends_callback _ _ _ _ _).of_push (List.suffix_refl _) rfl

/-- After a failed read the iterator is never continued again: the read keeps its unit of
`phase`, so the iterator stays at its node. -/
theorem run_quiet (hs : Inv cfg s) (hf : 0 < s.trace.countP Act.isReadFailure) {evs : List Ev}
    {s' : State} (h : run cfg s evs = some s') : continuedNodes s'.trace = continuedNodes s.trace := by
  induction evs generalizing s with
  | nil =>
    simp only [run, Option.some.injEq] at h
    rw [h]
  | cons e evs ih =>
    obtain ⟨s1, h1, h2⟩ := Option.bind_eq_some.mp h
    have hs1 := step_inv hs h1
    obtain ⟨hsuf, hnode⟩ := step_extends h1
    have hf1 : 0 < s1.trace.countP Act.isReadFailure :=
      lt_of_lt_of_le hf (hsuf.sublist.countP_le _)
    rcases hnode with hn | ⟨k, hk⟩
    · rw [ih hs1 hf1 h2, hs1.continues, hs.continues, hn]
    · exact absurd (hs1.ready k hk).2 (Nat.pos_iff_ne_zero.mp hf1)

end steps

/-! ## Pages

`castle_move_block` takes and locks the source page of a block off the destination set, and the
destination page once it has a destination block; it releases the source when there is none.
The copy callback releases both after a successful read, and nothing after a failed one: every
failed read keeps its two pages for ever (`reachable_pagesHeld`). -/

/-- The pages a transfer holds: two for each read in flight and two for each read that failed. -/
def PagesHeld (s : State) : Prop :=
  s.trace.countP Act.isPageGet =
    s.trace.countP Act.isPagePut + 2 * (s.inflight.length + s.trace.countP Act.isReadFailure)

section pages

variable {cfg : Config} {s : State}

/-- \`atomic_dec_and_test\` and the continue it may make take and release no page and complete no
read. -/
theorem pagesHeld_phaseDecAndContinue : PagesHeld (phaseDecAndContinue s) ↔ PagesHeld s := by
  unfold phaseDecAndContinue castleFtreeIterContinue
  dsimp only
  split_ifs
  · split <;> simp [PagesHeld]
  · rfl

/-- A copy callback after a successful read releases both pages. -/
theorem pagesHeld_callback_true (k : Nat) (src dest : Cdb) (s : State) :
    PagesHeld (castleDoTransferCallback k src dest true s) ↔
      s.trace.countP Act.isPageGet =
        s.trace.countP Act.isPagePut + 2 + 2 * (s.inflight.length + s.trace.countP Act.isReadFailure) := by
  simp only [castleDoTransferCallback, Bool.not_true, Bool.false_eq_true, if_false,
    pagesHeld_phaseDecAndContinue]
  simp [PagesHeld]

/-- Each step keeps the count of pages held. -/
theorem pagesHeld_step (hs : PagesHeld s) {e : Ev} {s' : State} (h : step cfg s e = some s') :
    PagesHeld s' := by
  unfold PagesHeld at hs
  rcases step_cases h with rfl | ⟨k, -, -, -, rfl⟩ | ⟨k, j, cdb, fs, u, -, -, rfl⟩ |
    ⟨k, j, -, -, rfl⟩ | ⟨i, k, src, dest, u, hi, rfl⟩
  · exact hs
  · simpa [PagesHeld] using hs
  · unfold castleMoveBlock
    by_cases hc : castleTransferIsBlockOnCorrectDisk cfg cdb
    · rw [if_pos hc]
      simpa [PagesHeld] using hs
    · rw [if_neg hc]
      cases castleTransferGetDestination cfg fs with
      | none => simp [PagesHeld]; omega
      | some dest =>
        cases u
        · simp [PagesHeld]; omega
        · simp only [Bool.not_true, Bool.false_eq_true, if_false, pagesHeld_callback_true]
          simp; omega
  · rw [castleTransferNodeEnd, pagesHeld_phaseDecAndContinue]
    simpa [PagesHeld] using hs
  · have hlt : i < s.inflight.length := (List.getElem?_eq_some_iff.mp hi).1
    have hlen := List.length_eraseIdx_of_lt hlt
    cases u
    · simp [castleDoTransferCallback, PagesHeld, hlen]; omega
    · rw [pagesHeld_callback_true]
      simp [hlen]; omega

theorem run_pagesHeld (hs : PagesHeld s) {evs : List Ev} {s' : State} (h : run cfg s evs = some s') :
    PagesHeld s' := by
  induction evs generalizing s with
  | nil =>
    simp only [run, Option.some.injEq] at h
    exact h ▸ hs
  | cons e evs ih =>
    obtain ⟨s1, h1, h2⟩ := Option.bind_eq_some.mp h
    exact ih (pagesHeld_step hs h1) h2

theorem reachable_pagesHeld (h : Reachable cfg s) : PagesHeld s :=
  let ⟨_, h⟩ := h
  run_pagesHeld (show PagesHeld init from rfl) h

theorem run_append (s : State) (a b : List Ev) :
    run cfg s (a ++ b) = (run cfg s a).bind fun s => run cfg s b := by
  induction a generalizing s with
  | nil => rfl
  | cons e a ih =>
    simp only [List.cons_append, run]
    cases step cfg s e with
    | none => rfl
    | some s1 => exact ih s1

theorem run_extends {evs : List Ev} {s' : State} (h : run cfg s evs = some s') :
    s.trace <:+ s'.trace := by
  induction evs generalizing s with
  | nil =>
    simp only [run, Option.some.injEq] at h
    exact h ▸ List.suffix_refl _
  | cons e evs ih =>
    obtain ⟨s1, h1, h2⟩ := Option.bind_eq_some.mp h
    exact (step_extends h1).1.trans (ih h2)

end pages

/-! ## What the transfer guarantees -/

theorem Act.isAllocFailure_of_isDestNone {k : Nat} {a : Act} (h : a.isDestNone k = true) :
    a.isAllocFailure = true := by
  cases a with
  | destination k' d => cases d <;> simp_all
  | _ => simp_all

theorem countP_failure_eq_zero {trace : List Act} (h : trace.countP Act.isFailure = 0) :
    trace.countP Act.isReadFailure = 0 ∧ trace.countP Act.isAllocFailure = 0 := by
  simp only [List.countP_eq_zero, Act.isFailure, Bool.or_eq_true, not_or] at h ⊢
  exact ⟨fun a ha => (h a ha).1, fun a ha => (h a ha).2⟩

/-- Without failures no entry found no destination. -/
theorem countP_destNone_eq_zero {trace : List Act} (hf : trace.countP Act.isFailure = 0)
    (k : Nat) : trace.countP (Act.isDestNone k) = 0 :=
  Nat.eq_zero_of_le_zero ((countP_failure_eq_zero hf).2 ▸
    List.countP_mono_left fun _ _ => Act.isAllocFailure_of_isDestNone)

/-- A trace whose acts all belong to nodes before `k` counts its progress node by node. -/
theorem countP_anyProgress_eq_sum {k : Nat} : ∀ {trace : List Act},
    (∀ a ∈ trace, ∀ m, a.tag = some m → m < k) →
    trace.countP Act.isAnyProgress = ∑ m ∈ Finset.range k, trace.countP (Act.isProgress m)
  | [], _ => by simp
  | a :: trace, h => by
    rw [List.countP_cons, countP_anyProgress_eq_sum fun b hb => h b (List.mem_cons_of_mem _ hb)]
    simp only [List.countP_cons, Finset.sum_add_distrib, add_right_inj]
    cases a with
    | progress m => simp [h _ (List.mem_cons_self _ _) m rfl]
    | _ => simp

/-- In a run without failures, whenever node `k` is next, `progress` counts every entry of the
nodes before it. -/
theorem progress_of_ready (hi : Inv cfg s) (hf : s.trace.countP Act.isFailure = 0) {k : Nat}
    (hk : s.iter = .ready k) : s.progress = ∑ m ∈ Finset.range k, (cfg.tree.getD m []).length := by
  have htags : ∀ a ∈ s.trace, ∀ m, a.tag = some m → m < k := fun a ha m hm => by
    rcases hi.tags a ha m hm with h | ⟨-, h⟩
    · simpa [hk, IterPos.node] using h
    · simp [hk, IterPos.started] at h
  rw [hi.progress, countP_anyProgress_eq_sum htags]
  refine Finset.sum_congr rfl fun m hm => ?_
  simpa [countP_destNone_eq_zero hf] using (hi.closed m (by simpa [hk, IterPos.node] using hm)).entries

/-- The per-node barrier.  The iterator is continued at most once per node, and at the end of
the walk once for every node; a node is continued only after its `node_end` and after every
move started for it went through the copy; in a run without failures, a node whose end ran
and whose reads all completed has been continued; and from the moment a node is next to the
moment it has been continued, `progress` has grown by exactly its entries. -/
theorem transfer_node_barrier (cfg : Config) (s : State) (hs : Reachable cfg s) :
    (continuedNodes s.trace).Nodup ∧
    (∀ k, s.iter = .ready k → continuedNodes s.trace = (List.range k).reverse) ∧
    (∀ k, Act.continue k ∈ s.trace → Act.nodeEnd k ∈ s.trace ∧
      s.trace.countP (Act.isMoveStart k) = s.trace.countP (Act.isCallback k true)) ∧
    (s.trace.countP Act.isFailure = 0 →
      ∀ k, Act.nodeEnd k ∈ s.trace → s.inflight = [] → Act.continue k ∈ s.trace) ∧
    (∀ k evs s', s.iter = .ready k → run cfg s evs = some s' → s'.iter = .ready (k + 1) →
      s'.trace.countP Act.isFailure = 0 →
        s'.progress = s.progress + (cfg.tree.getD k []).length) := by
  have hi := reachable_inv hs
  refine ⟨?_, fun k hk => by rw [hi.continues, hk]; rfl, fun k hk => ?_, fun hf k hk hinf => ?_,
    fun k evs s' hk hrun hk' hf' => ?_⟩
  · rw [hi.continues]
    exact List.nodup_reverse.mpr (List.nodup_range _)
  · have hc := hi.closed k (by simpa [hi.continues] using mem_continuedNodes.mpr hk)
    exact ⟨hc.ended, hc.copied⟩
  · rcases hi.nodeEnds k hk with h | h
    · exact mem_continuedNodes.mp (by simpa [hi.continues] using h)
    · have hph := hi.phase
      rw [h] at hph
      simp only [IterPos.openUnit, hinf, (countP_failure_eq_zero hf).1, List.length_nil] at hph
      exact absurd (by exact_mod_cast hph) (hi.waiting k h)
  · -- both states count the entries of the nodes before theirs
    obtain ⟨evs₀, h₀⟩ := hs
    have hi' : Inv cfg s' :=
      reachable_inv ⟨evs₀ ++ evs, by rw [run_append, h₀, Option.some_bind, hrun]⟩
    have hf : s.trace.countP Act.isFailure = 0 :=
      Nat.eq_zero_of_le_zero (hf' ▸ (run_extends hrun).sublist.countP_le _)
    rw [progress_of_ready hi' hf' hk', progress_of_ready hi hf hk, Finset.sum_range_succ]

/-- Cancellation.  Every failure cancels the iterator once: an allocation failure in
`castle_move_block` and a failed read in the copy callback each call
`castle_ftree_iter_cancel`; and after a failed read no event ever continues the iterator. -/
theorem transfer_cancel_once_per_failure (cfg : Config) (s : State) (hs : Reachable cfg s) :
    s.trace.countP Act.isCancel =
      s.trace.countP Act.isAllocFailure + s.trace.countP Act.isReadFailure ∧
    (0 < s.trace.countP Act.isReadFailure → ∀ evs s', run cfg s evs = some s' →
      continuedNodes s'.trace = continuedNodes s.trace) :=
  ⟨(reachable_inv hs).cancels, fun hf _ _ h => run_quiet (reachable_inv hs) hf h⟩

/-- Every block the transfer frees is an entry of the forward tree off the destination set: the
copy callback frees the source of the move, and nothing in the transfer changes the tree. -/
theorem transfer_frees_only_tree_blocks (cfg : Config) (s : State) (hs : Reachable cfg s) :
    ∀ cdb, Act.free cdb ∈ s.trace →
      (∃ k, cdb ∈ cfg.tree.getD k []) ∧ castleTransferIsBlockOnCorrectDisk cfg cdb = false :=
  (reachable_inv hs).freed

/-- `BUG_ON(atomic_read(&transfer->phase) != 0)` in `castle_transfer_node_start` never fires,
whatever the iterator, the allocator and the reads do. -/
theorem transfer_run_never_bugs (cfg : Config) (evs : List Ev) : (run cfg init evs).isSome :=
  run_isSome (init_inv cfg) evs

/-! ## Two runs -/

/-- A transfer to the target slave `1` of a tree of one node with one block on slave `0`. -/
def oneMoveCfg : Config := ⟨.toTarget, [], fun disk => disk == 1, [[⟨0, 7⟩]]⟩

/-- An allocator that gives block `3` of slave `1`. -/
def targetSpace : FreeSpace := ⟨some ⟨1, 3⟩, fun _ _ => 0, fun _ _ => none⟩

/-- `node_start`, the entry (its page up to date, so the copy is synchronous), `node_end`. -/
def oneMoveEvents : List Ev := List.replicate 3 (.iterNext targetSpace true)

/-- The run of `oneMoveCfg` ends without error, having freed block `7` of slave `0`, which the
tree still references and which is not on the destination set. -/
theorem transfer_frees_referenced_block :
    ∃ s, run oneMoveCfg init oneMoveEvents = some s ∧ s.iter = .ready oneMoveCfg.tree.length ∧
      s.trace.countP Act.isCancel = 0 ∧ Act.free ⟨0, 7⟩ ∈ s.trace ∧
      (⟨0, 7⟩ : Cdb) ∈ oneMoveCfg.tree.getD 0 [] ∧
      castleTransferIsBlockOnCorrectDisk oneMoveCfg ⟨0, 7⟩ = false :=
  ⟨_, rfl, by decide, by decide, by decide, by decide, by decide⟩

theorem transfer_node_barrier_example :
    ∃ s, run oneMoveCfg init oneMoveEvents = some s ∧ (continuedNodes s.trace).Nodup ∧
      Act.nodeEnd 0 ∈ s.trace ∧
      s.trace.countP (Act.isMoveStart 0) = s.trace.countP (Act.isCallback 0 true) ∧
      s.progress = init.progress + (oneMoveCfg.tree.getD 0 []).length := by
  refine ⟨_, rfl, ?_⟩
  obtain ⟨hnd, -, hcl, -⟩ := transfer_node_barrier oneMoveCfg _ ⟨oneMoveEvents, rfl⟩
  exact ⟨hnd, (hcl 0 (by decide)).1, (hcl 0 (by decide)).2,
    (transfer_node_barrier oneMoveCfg init ⟨[], rfl⟩).2.2.2.2 0 oneMoveEvents _ rfl rfl rfl
      (by decide)⟩

theorem transfer_frees_only_tree_blocks_example :
    ∃ s, run oneMoveCfg init oneMoveEvents = some s ∧ Act.free ⟨0, 7⟩ ∈ s.trace ∧
      (∃ k, (⟨0, 7⟩ : Cdb) ∈ oneMoveCfg.tree.getD k []) ∧
      castleTransferIsBlockOnCorrectDisk oneMoveCfg ⟨0, 7⟩ = false := by
  refine ⟨_, rfl, by decide, ?_⟩
  exact transfer_frees_only_tree_blocks oneMoveCfg _ ⟨oneMoveEvents, rfl⟩ ⟨0, 7⟩ (by decide)

/-- A tree of one node with two blocks on slave `0`, neither page up to date. -/
def twoReadsCfg : Config := ⟨.toTarget, [], fun disk => disk == 1, [[⟨0, 7⟩, ⟨0, 8⟩]]⟩

/-- `node_start`, both entries (two reads submitted), `node_end`, and both reads failing. -/
def twoReadsEvents : List Ev :=
  List.replicate 4 (.iterNext targetSpace false) ++ List.replicate 2 (.readEnd 0 false)

theorem transfer_cancel_once_per_failure_example :
    ∃ s, run twoReadsCfg init twoReadsEvents = some s ∧
      s.trace.countP Act.isCancel = 2 ∧ s.trace.countP Act.isReadFailure = 2 ∧
      ∀ evs s', run twoReadsCfg s evs = some s' → continuedNodes s'.trace = continuedNodes s.trace := by
  refine ⟨_, rfl, ?_⟩
  obtain ⟨hc, hq⟩ := transfer_cancel_once_per_failure twoReadsCfg _ ⟨twoReadsEvents, rfl⟩
  exact ⟨by decide, by decide, hq (by decide)⟩

/-- Two reads fail and each calls `castle_ftree_iter_cancel`. -/
theorem transfer_double_read_failure :
    ¬ ∀ (cfg : Config) (s : State), Reachable cfg s →
      s.trace.countP Act.isCancel ≤ 1 ∧
      (0 < s.trace.countP Act.isCancel → ∀ evs s', run cfg s evs = some s' →
        continuedNodes s'.trace = continuedNodes s.trace) := fun h =>
  absurd (h twoReadsCfg _ ⟨twoReadsEvents, rfl⟩).1 (by decide)

/-- `node_start`, the entry of `oneMoveCfg` (its page not up to date, so a read is submitted),
`node_end`, and the read failing. -/
def oneReadFailureEvents : List Ev :=
  List.replicate 3 (.iterNext targetSpace false) ++ [.readEnd 0 false]

/-- A transfer of one block whose read fails: the copy callback cancels the iterator and returns
with the source and destination pages still taken and locked, and no later event, in any order,
releases them. -/
theorem transfer_read_failure_keeps_pages :
    ∃ s, run oneMoveCfg init oneReadFailureEvents = some s ∧ s.inflight = [] ∧
      s.trace.countP Act.isPageGet = 2 ∧ s.trace.countP Act.isPagePut = 0 ∧
      ∀ evs s', run oneMoveCfg s evs = some s' →
        s'.trace.countP Act.isPagePut + 2 ≤ s'.trace.countP Act.isPageGet := by
  obtain ⟨s, hs, hinf, hget, hput, hrf⟩ : ∃ s, run oneMoveCfg init oneReadFailureEvents = some s ∧
      s.inflight = [] ∧ s.trace.countP Act.isPageGet = 2 ∧ s.trace.countP Act.isPagePut = 0 ∧
      s.trace.countP Act.isReadFailure = 1 :=
    ⟨_, rfl, rfl, by decide, by decide, by decide⟩
  refine ⟨s, hs, hinf, hget, hput, fun evs s' h => ?_⟩
  have hheld : PagesHeld s' :=
    reachable_pagesHeld ⟨oneReadFailureEvents ++ evs, by rw [run_append, hs, Option.some_bind]; exact h⟩
  have hfail := (run_extends h).sublist.countP_le Act.isReadFailure
  unfold PagesHeld at hheld
  omega

end Transfer
end Castle
