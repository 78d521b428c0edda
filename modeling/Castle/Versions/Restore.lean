import Castle.Versions.Ordering

/-!
# Writing the versions back and reading them again

`castle_versions_writeback` stores one entry per version: its id, its parent, its size and its
`da_id`.  `castle_versions_read` adds the entries back, in whatever order the store returns them,
and processes.  This module shows that the round trip restores the registry: the read never
fails on what a reachable registry wrote, its processing runs to its end within the rounds the
code gives it, and every version comes back as it was, but for the attached and snapshot flags,
which the store does not keep.

* `readLoop_some`, `readLoop_initList` — the read loop adds every entry and puts the non-root
  ones on the init list.
* `Pending`, `Climb` — what the init loop of `castle_versions_process` keeps while it threads
  restored versions, and the climb it makes from a version whose parent still waits;
  `processInitLoop_live` — the loop ends, refusing none, within `(k + 1) ^ 2 + 1` rounds for
  `k` waiting versions; `castleVersionsProcess_pending` — so does processing.
* `links_congr` — in linked registries the sibling links follow from parents and init flags.
* **`writeback_read_round_trip`**.
-/

namespace Castle
namespace Versions

/-- A version with the flags `castle_version_add` clears cleared. -/
def Version.unflagged (u : Version) : Version := { u with attached := false, snap := false }

/-- A version with what processing sets cleared: its sibling links, its init flag, its
orders. -/
def Version.stored (u : Version) : Version :=
  { u with firstChild := none, nextSybling := none, inited := false, oOrder := none, rOrder := none }

theorem Version.sansOrders_eq {u u' : Version} (hs : u'.stored = u.stored) (hl : u'.links = u.links) :
    u'.sansOrders = u.sansOrders := by
  cases u; cases u'
  simp only [Version.stored, Version.links, Version.sansOrders, Version.mk.injEq, Prod.mk.injEq]
    at hs hl ⊢
  simp only [hs, hl, and_self]

namespace Registry

/-! ## The read loop -/

section read
variable {r r' : Registry}

theorem castleVersionAdd_of_le {version parent size : Nat} {daId : Option Nat}
    (h : r.versionCnt + 1 ≤ 900) :
    ∃ r', castleVersionAdd version parent daId size r = (r', some version) ∧
      r'.versionCnt = r.versionCnt + 1 := by
  unfold castleVersionAdd
  rw [if_neg (by simp only; rw [atomicValue_of_lt (by omega)]; omega)]
  split_ifs <;> exact ⟨_, rfl, rfl⟩

theorem castleVersionAdd_initList {version parent size v : Nat} {daId : Option Nat}
    (h : castleVersionAdd version parent daId size r = (r', some v)) :
    r'.initList = if version = 0 then r.initList else version :: r.initList := by
  unfold castleVersionAdd at h
  by_cases hc : atomicValue (r.versionCnt + 1) > 900
  · simp [hc] at h
  by_cases h0 : version = 0 <;> simp only [hc, h0, if_false, if_true, Prod.mk.injEq] at h <;>
    simp [← h.1, h0]

/-- A read loop with room in the count for every entry adds them all. -/
theorem readLoop_some : ∀ {es : List VlistEntry} {r : Registry}, r.versionCnt + es.length ≤ 900 →
    ∃ r', readLoop es r = (r', 0)
  | [], r, _ => ⟨r, rfl⟩
  | e :: es, r, h => by
    obtain ⟨r₁, hadd, hc⟩ :=
      @castleVersionAdd_of_le r e.versionNr e.parent e.size e.daId (by simp only [List.length_cons] at h; omega)
    unfold readLoop
    rw [hadd]
    exact readLoop_some (by show r₁.versionCnt + es.length ≤ 900; simp only [List.length_cons] at h; omega)

/-- The read loop puts the non-root ids on the init list, the last read first. -/
theorem readLoop_initList : ∀ {es : List VlistEntry} {r r' : Registry}, readLoop es r = (r', 0) →
    r'.initList = ((es.map (·.versionNr)).filter (· ≠ 0)).reverse ++ r.initList
  | [], r, r', h => by cases h; rfl
  | e :: es, r, r', h => by
    unfold readLoop at h
    rcases hadd : castleVersionAdd e.versionNr e.parent e.daId e.size r with ⟨r₁, _ | v⟩
    · rw [hadd] at h; exact absurd (Prod.mk.inj h).2 (by decide)
    rw [hadd] at h
    rw [readLoop_initList h, show ({ r₁ with last := _ } : Registry).initList = r₁.initList from rfl,
      castleVersionAdd_initList hadd]
    by_cases h0 : e.versionNr = 0 <;> simp [h0]

end read

/-! ## The init loop on restored versions -/

/-- The registry while `castle_versions_process` threads what `castle_versions_read` restored: a
threading registry whose init list holds, once each, exactly the uninited versions, none with a
flag that could have it refused. -/
structure Pending (r : Registry) : Prop where
  threading : r.Threading
  nodup : r.initList.Nodup
  mem : ∀ y, y ∈ r.initList ↔ ∃ u, r.get y = some u ∧ u.inited = false
  flags : ∀ y u, r.get y = some u → u.attached = false ∧ u.snap = false

/-- The climb of the init loop to `v` from the waiting versions `A` below it, each of whose
parent was still waiting: `v` and `A` wait, once each. -/
def Climb (r : Registry) (v : Nat) (A : List Nat) : Prop :=
  (v :: A).Nodup ∧ (∀ a ∈ v :: A, a ∈ r.initList) ∧ ∀ a ∈ A, Below r v a

section live
variable {r r' : Registry}

theorem get_initList (l : List Nat) (y : Nat) :
    ({ r with initList := l } : Registry).get y = r.get y := rfl

/-- A round at `v` whose parent still waits: `v` goes back in front, and the loop climbs. -/
theorem processInitLoop_climb {fuel v pId : Nat} {err : Int} {vv p : Version}
    (hvl : v ∈ r.initList) (hv : r.get v = some vv) (hvi : vv.inited = false)
    (hvp : vv.parent = some pId) (hp : r.get pId = some p) (hsnap : vv.snap = false)
    (hatt : p.attached = false) (hpi : p.inited = false) :
    processInitLoop (fuel + 1) r err (some v) =
      processInitLoop fuel { r with initList := v :: r.initList.erase v } err (some pId) := by
  simp [processInitLoop, hvl, get_initList, hv, hvi, hvp, hp, hsnap, hatt, hpi]

/-- A round at `v` whose parent is inited: `v` is threaded under it and inited. -/
theorem processInitLoop_thread {fuel v pId : Nat} {err : Int} {vv p : Version}
    (hvl : v ∈ r.initList) (hv : r.get v = some vv) (hvi : vv.inited = false)
    (hvp : vv.parent = some pId) (hp : r.get pId = some p) (hsnap : vv.snap = false)
    (hatt : p.attached = false) (hpi : p.inited = true) :
    processInitLoop (fuel + 1) r err (some v) =
      (castleVersionsInsert pId v { r with initList := r.initList.erase v }).bind fun r =>
        processInitLoop fuel (r.modify v fun v => { v with inited := true }) err none := by
  simp [processInitLoop, hvl, get_initList, hv, hvi, hvp, hp, hsnap, hatt, hpi]

theorem exists_of_map_eq {α β : Type} {f : α → β} {x x' : Option α} {a' : α}
    (h : x'.map f = x.map f) (hx : x' = some a') : ∃ a, x = some a ∧ f a' = f a := by
  subst hx
  cases x with
  | none => cases h
  | some a => exact ⟨a, rfl, Option.some.inj h⟩

theorem castleVersionsInsert_some (ht : r.Threading) {p v : Nat} {pv vv : Version}
    (hp : r.get p = some pv) (hpi : pv.inited = true) (hv : r.get v = some vv)
    (hvi : vv.inited = false) : ∃ r₃, castleVersionsInsert p v r = some r₃ :=
  let ⟨_, _, hAB, hA, hB⟩ := exists_insert_split (kids_sorted p) (not_mem_kids_of_uninited hv hvi)
  ⟨_, castleVersionsInsert_eq ht hp hpi hv hvi hAB hA hB⟩

theorem Climb.length_lt {v : Nat} {A : List Nat} (hc : Climb r v A) : A.length < r.initList.length :=
  (List.subperm_of_subset hc.1 hc.2.1).length_le

/-- A climb from `v` to its waiting parent `pId`: `v` goes back in front of the list. -/
theorem Climb.climb {v pId : Nat} {A : List Nat} (hc : Climb r v A) {rank : Nat → Nat}
    (hrank : ∀ v p, r.parentOf v = some p → rank p < rank v) (hpar : r.parentOf v = some pId)
    (hpl : pId ∈ r.initList) :
    Climb { r with initList := v :: r.initList.erase v } pId (v :: A) := by
  obtain ⟨hn, hmem, hbelow⟩ := hc
  have hpv : pId ≠ v := fun e => lt_irrefl _ (e ▸ hrank v pId hpar)
  have hup : Below r pId v := .of_parentOf hpar
  have hpA : pId ∉ A := fun h => hpv (Below.antisymm hrank hup (hbelow pId h))
  refine ⟨List.nodup_cons.mpr ⟨by simp [hpv, hpA], hn⟩, fun a ha => ?_, fun a ha => ?_⟩
  · show a ∈ v :: r.initList.erase v
    rcases List.mem_cons.mp ha with rfl | ha
    · exact List.mem_cons_of_mem _ ((List.mem_erase_of_ne hpv).mpr hpl)
    rcases List.mem_cons.mp ha with rfl | haA
    · exact List.mem_cons_self _ _
    have hav : a ≠ v := fun e => (List.nodup_cons.mp hn).1 (e ▸ haA)
    exact List.mem_cons_of_mem _ ((List.mem_erase_of_ne hav).mpr (hmem a (List.mem_cons_of_mem _ haA)))
  · exact (@below_congr r { r with initList := v :: r.initList.erase v } (fun _ => rfl) pId a).mpr
      (hup.trans ((List.mem_cons.mp ha).elim (fun e => e ▸ .self) (hbelow a)))

theorem Pending.climb (hp : r.Pending) {v : Nat} (hvl : v ∈ r.initList) :
    ({ r with initList := v :: r.initList.erase v } : Registry).Pending where
  threading := hp.threading.setInitList _
  nodup := List.nodup_cons.mpr ⟨hp.nodup.not_mem_erase, hp.nodup.erase v⟩
  mem y := (show y ∈ v :: r.initList.erase v ↔ y ∈ r.initList by
    rw [List.mem_cons, hp.nodup.mem_erase_iff]
    exact ⟨fun h => h.elim (· ▸ hvl) And.right, fun h => (em (y = v)).imp_right fun hy => ⟨hy, h⟩⟩).trans
      (hp.mem y)
  flags := hp.flags

/-- A round that threads `v` under its inited parent keeps the registry pending, one version
fewer waiting, and changes no version but in its sibling links and init flag. -/
theorem Pending.thread (hp : r.Pending) {v pId : Nat} {vv p : Version} (hvl : v ∈ r.initList)
    (hv : r.get v = some vv) (hvi : vv.inited = false) (hvp : vv.parent = some pId)
    (hpp : r.get pId = some p) (hpi : p.inited = true) {r₃ : Registry}
    (hins : castleVersionsInsert pId v { r with initList := r.initList.erase v } = some r₃) :
    (r₃.modify v fun u => { u with inited := true }).Pending ∧
      ((r₃.modify v fun u => { u with inited := true }).initList = r.initList.erase v) ∧
      ∀ y, ((r₃.modify v fun u => { u with inited := true }).get y).map Version.stored =
        (r.get y).map Version.stored := by
  obtain ⟨ht', -, hil', -, -, hbody, n, hget⟩ :=
    castleVersionsInsert_threads (hp.threading.setInitList (r.initList.erase v)) hpp hpi hv hvi hvp hins
  set r' := r₃.modify v fun u => { u with inited := true }
  -- every other version keeps all but its sibling link
  have hback : ∀ y u', y ≠ v → r'.get y = some u' → ∃ u, r.get y = some u ∧ u'.body = u.body :=
    fun y u' hy hu' => exists_of_map_eq (hbody y hy) hu'
  refine ⟨⟨ht', hil' ▸ hp.nodup.erase v, fun y => ?_, fun y u hu => ?_⟩, hil', fun y => ?_⟩
  · rw [show y ∈ r'.initList ↔ y ∈ r.initList.erase v from hil' ▸ Iff.rfl, hp.nodup.mem_erase_iff,
      hp.mem y]
    by_cases hy : y = v
    · subst hy
      simp [hget]
    · refine ⟨fun ⟨_, u, hu, hui⟩ => ?_, fun ⟨u', hu', hui'⟩ => ?_⟩
      · obtain ⟨u', hu', he⟩ := exists_of_map_eq (hbody y hy).symm hu
        exact ⟨u', hu', (Version.inited_of_body he).symm ▸ hui⟩
      · obtain ⟨u, hu, he⟩ := hback y u' hy hu'
        exact ⟨hy, u, hu, (Version.inited_of_body he) ▸ hui'⟩
  · by_cases hy : y = v
    · subst hy
      rw [hget, Option.some_inj] at hu
      subst hu
      exact hp.flags y vv hv
    · obtain ⟨w, hw, he⟩ := hback y u hy hu
      rw [Version.attached_of_body he, show u.snap = w.snap from (congrArg Version.snap he :)]
      exact hp.flags y w hw
  · by_cases hy : y = v
    · subst hy; rw [hget, hv]; rfl
    · have := congrArg (Option.map Version.stored) (hbody y hy)
      simpa only [Option.map_map, Function.comp_def, Version.body, Version.stored] using this

/-- The init loop on a pending registry ends, refusing nothing, within the rounds it is given:
`(k + 1) ^ 2 + 1` from the head of the loop with `k` versions waiting, and from a climb that
has passed `A`, `k - |A|` rounds to thread what it climbed to and `k ^ 2 + 1` for the rest.  It
changes no version but in its sibling links and init flag. -/
theorem processInitLoop_live {err : Int} (fuel : Nat) :
    ∀ {r : Registry} {cur : Option Nat}, r.Pending →
    (cur = none ∧ (r.initList.length + 1) * (r.initList.length + 1) + 1 ≤ fuel ∨
      ∃ v A, cur = some v ∧ Climb r v A ∧
        r.initList.length - A.length + r.initList.length * r.initList.length + 1 ≤ fuel) →
    ∃ r', processInitLoop fuel r err cur = some (r', err) ∧
      ∀ y, (r'.get y).map Version.stored = (r.get y).map Version.stored := by
  induction fuel with
  | zero => rintro r cur - (⟨-, h⟩ | ⟨_, _, -, -, h⟩) <;> omega
  | succ fuel ih =>
    rintro r cur hp (⟨rfl, hf⟩ | ⟨v, A, rfl, hc, hf⟩)
    · -- the head of the loop
      cases hl : r.initList with
      | nil => exact ⟨r, processInitLoop_nil hl err, fun _ => rfl⟩
      | cons v rest =>
        rw [processInitLoop_head hl]
        refine ih hp (.inr ⟨v, [], rfl, ⟨List.nodup_singleton v, by simp [hl], by simp⟩, ?_⟩)
        rw [hl] at hf ⊢
        simp only [List.length_cons, List.length_nil] at hf ⊢
        have : (rest.length + 1 + 1) * (rest.length + 1 + 1) =
            (rest.length + 1) * (rest.length + 1) + 2 * (rest.length + 1) + 1 := by ring
        omega
    · -- a round at `v`
      have hvl := hc.2.1 v (List.mem_cons_self _ _)
      obtain ⟨vv, hv, hvi⟩ := (hp.mem v).mp hvl
      obtain ⟨u0, h0, hu0i⟩ := hp.threading.rootInited
      obtain ⟨pId, hvp, hps⟩ := hp.threading.rooted.parent v vv hv (ne_of_inited h0 hu0i hv hvi).symm
      obtain ⟨p, hpp⟩ := Option.isSome_iff_exists.mp hps
      have hsnap := (hp.flags v vv hv).2
      have hatt := (hp.flags pId p hpp).1
      have hlt := hc.length_lt
      cases hpi : p.inited
      · -- the parent waits: climb to it
        rw [processInitLoop_climb hvl hv hvi hvp hpp hsnap hatt hpi]
        obtain ⟨rank, hrank⟩ := hp.threading.rooted.rank
        have hlen : (v :: r.initList.erase v).length = r.initList.length := by
          rw [List.length_cons, List.length_erase_of_mem hvl]
          have := List.length_pos_of_mem hvl
          omega
        refine ih (hp.climb hvl) (.inr ⟨pId, v :: A, rfl,
          hc.climb hrank (parentOf_eq_some.mpr ⟨vv, hv, hvp⟩) ((hp.mem pId).mpr ⟨p, hpp, hpi⟩), ?_⟩)
        show (v :: r.initList.erase v).length - (v :: A).length +
          (v :: r.initList.erase v).length * (v :: r.initList.erase v).length + 1 ≤ fuel
        rw [hlen, List.length_cons]
        omega
      · -- the parent is inited: thread `v` under it
        obtain ⟨r₃, hins⟩ := castleVersionsInsert_some (hp.threading.setInitList (r.initList.erase v))
          hpp hpi hv hvi
        rw [processInitLoop_thread hvl hv hvi hvp hpp hsnap hatt hpi, hins, Option.some_bind]
        obtain ⟨hp', hil', hst'⟩ := hp.thread hvl hv hvi hvp hpp hpi hins
        have hf' : ((r₃.modify v fun u => { u with inited := true }).initList.length + 1) *
            ((r₃.modify v fun u => { u with inited := true }).initList.length + 1) + 1 ≤ fuel := by
          rw [hil', List.length_erase_of_mem hvl, Nat.sub_add_cancel (List.length_pos_of_mem hvl)]
          omega
        obtain ⟨r', hrun, hst⟩ := ih hp' (.inl ⟨rfl, hf'⟩)
        exact ⟨r', hrun, fun y => (hst y).trans (hst' y)⟩

end live

/-- `castle_versions_process` of a pending registry returns `0`: the init loop threads every
waiting version, refusing none, within the rounds it is given, and the walk numbers them.  No
version changes but in its sibling links, init flag and orders. -/
theorem castleVersionsProcess_pending {r : Registry} (hp : r.Pending) :
    ∃ r', castleVersionsProcess r = some (r', 0) ∧
      ∀ y, (r'.get y).map Version.stored = (r.get y).map Version.stored := by
  obtain ⟨r₂, hloop, hst₂⟩ := @processInitLoop_live 0 _ r none hp (.inl ⟨rfl, le_rfl⟩)
  obtain ⟨ht₂, -⟩ := processInitLoop_threads hloop hp.threading
  obtain ⟨u0, h0, hu0i⟩ := ht₂.rootInited
  obtain ⟨u0', h0', hp0⟩ := ht₂.rooted.root
  obtain rfl := Option.some_inj.mp (h0.symm.trans h0')
  obtain ⟨r₃, F, hrun, hoo, -⟩ := dfsLoop_threading ht₂
  refine ⟨r₃, by simp [castleVersionsProcess, hloop, h0, hu0i, hp0, hrun], fun y => ?_⟩
  refine Eq.trans ?_ (hst₂ y)
  simpa only [Option.map_map, Function.comp_def, Version.sansOrders, Version.stored] using
    congrArg (Option.map Version.stored) (hoo.2.2.2.2 y)

/-! ## The registry `castle_versions_read` restores -/

section congr
variable {r r' : Registry}

/-- In linked registries with the same versions, the sibling links follow from the parents and
init flags. -/
theorem links_congr (hl : r.Linked) (hl' : r'.Linked) (hids : r'.ids.Perm r.ids)
    (h : ∀ v, (r'.get v).map Version.place = (r.get v).map Version.place) (v : Nat) :
    (r'.get v).map Version.links = (r.get v).map Version.links := by
  have hk := kids_congr_perm hids h
  cases hu' : r'.get v with
  | none =>
    have := h v
    rw [hu', Option.map_none', eq_comm, Option.map_eq_none'] at this
    rw [this]
  | some u' =>
    obtain ⟨u, hu, hpl⟩ := exists_of_map_eq (h v) hu'
    simp only [Version.place, Prod.mk.injEq] at hpl
    obtain ⟨hf, hn⟩ := hl v u hu
    obtain ⟨hf', hn'⟩ := hl' v u' hu'
    rw [hu]
    simp only [Option.map_some', Version.links, hf, hn, hf', hn', hk, hpl.1, hpl.2]

/-- Registries whose versions are all inited and agree but in links, init flags and orders
agree in parents and init flags. -/
theorem place_congr (hs : ∀ y, (r'.get y).map Version.stored = (r.get y).map Version.stored)
    (hi : r.AllInited) (hi' : r'.AllInited) (y : Nat) :
    (r'.get y).map Version.place = (r.get y).map Version.place := by
  cases hu' : r'.get y with
  | none =>
    have := hs y
    rw [hu', Option.map_none', eq_comm, Option.map_eq_none'] at this
    rw [this]
  | some u' =>
    obtain ⟨u, hu, hsu⟩ := exists_of_map_eq (hs y) hu'
    rw [hu]
    simp only [Option.map_some', Version.place, hi y u hu, hi' y u' hu']
    rw [show u'.parent = u.parent from (congrArg Version.parent hsu :)]

theorem sansOrders_congr (hs : ∀ y, (r'.get y).map Version.stored = (r.get y).map Version.stored)
    (hl : ∀ y, (r'.get y).map Version.links = (r.get y).map Version.links) (y : Nat) :
    (r'.get y).map Version.sansOrders = (r.get y).map Version.sansOrders := by
  cases hu' : r'.get y with
  | none =>
    have := hs y
    rw [hu', Option.map_none', eq_comm, Option.map_eq_none'] at this
    rw [this]
  | some u' =>
    obtain ⟨u, hu, hsu⟩ := exists_of_map_eq (hs y) hu'
    obtain ⟨u₁, hu₁, hlu⟩ := exists_of_map_eq (hl y) hu'
    rw [hu, Option.some_inj] at hu₁
    subst hu₁
    rw [hu]
    exact congrArg some (Version.sansOrders_eq hsu hlu)

end congr

theorem restored_flags (u : Version) : (restored u).attached = false ∧ (restored u).snap = false := by
  unfold restored entryVersion
  split_ifs <;> exact ⟨rfl, rfl⟩

/-- A restored version is the version as it was, flags cleared, but for what processing sets. -/
theorem stored_restored {u : Version} (hp : (restored u).parent = u.parent) :
    (restored u).stored = u.unflagged.stored := by
  revert hp
  unfold restored entryVersion addedVersion
  split_ifs <;> intro hp <;> cases u <;> simp_all [Version.stored, Version.unflagged]

/-- **Writing back and reading again restores the registry.**  For every reachable registry that
carries the depth-first numbering and holds at most `900` versions, whatever order the store
returns the entries `castle_versions_writeback` wrote in, `castle_versions_read` returns `0` and
every version comes back as it was, its links and orders included, but for the attached and
snapshot flags, which the store does not keep. -/
theorem writeback_read_round_trip {r₀ : Registry} (hr : r₀.Reachable) (hn : r₀.Numbered)
    (hcap : r₀.ids.length ≤ 900) {entries : List VlistEntry}
    (hperm : entries.Perm (castleVersionsWriteback r₀)) :
    ∃ r, castleVersionsRead entries freshRegistry = some (r, 0) ∧
      ∀ y, r.get y = (r₀.get y).map Version.unflagged := by
  have hi := hr.inv
  have hrt := hi.shaped.rooted
  -- the read loop adds every entry, the ones but the root waiting to be threaded
  have hversions : (entries.map (·.versionNr)).Perm r₀.ids := by
    have := hperm.map (·.versionNr)
    rwa [castleVersionsWriteback, List.map_map] at this
  obtain ⟨r₁, hloop⟩ := @readLoop_some entries freshRegistry (by
    rw [show freshRegistry.versionCnt = 0 from rfl, Nat.zero_add, ← List.length_map entries (·.versionNr),
      hversions.length_eq]
    exact hcap)
  obtain ⟨hids₁, hget₁⟩ := readLoop_get hrt.nodup hperm hloop
  have hil₁ := readLoop_initList hloop
  rw [show freshRegistry.initList = [] from rfl, List.append_nil] at hil₁
  have hpend : r₁.Pending := by
    refine ⟨(readLoop_threading hi hperm hloop).1, ?_, fun y => ?_, fun y u hu => ?_⟩
    · rw [hil₁]
      exact List.nodup_reverse.mpr ((hversions.nodup_iff.mpr hrt.nodup).filter _)
    · rw [hil₁, List.mem_reverse, List.mem_filter, hversions.mem_iff, hget₁, decide_eq_true_eq]
      constructor
      · rintro ⟨hy, hy0⟩
        obtain ⟨u, hu⟩ := Option.isSome_iff_exists.mp (get_isSome_of_mem_ids hy)
        refine ⟨restored u, by rw [hu]; rfl, ?_⟩
        cases h : (restored u).inited
        · rfl
        · exact absurd ((restored_links hrt hu).2.2.2.mp h) hy0
      · rintro ⟨u', hu', hui⟩
        obtain ⟨u, hu, rfl⟩ := Option.map_eq_some'.mp hu'
        exact ⟨mem_ids_of_get hu, fun e => by
          rw [(restored_links hrt hu).2.2.2.mpr e] at hui; cases hui⟩
    · rw [hget₁] at hu
      obtain ⟨w, -, rfl⟩ := Option.map_eq_some'.mp hu
      exact restored_flags w
  obtain ⟨r, hproc, hst⟩ := castleVersionsProcess_pending hpend
  have hread : castleVersionsRead entries freshRegistry = some (r, 0) := by
    rw [castleVersionsRead, hloop]
    exact hproc
  refine ⟨r, hread, fun y => ?_⟩
  have hri := hi.restore hperm hread
  have hrn := hri.numbered (hi.restore_processed hperm hread)
  -- `r₀` with its flags cleared: numbered as `r₀` is
  set r₀' : Registry := { r₀ with hash := r₀.hash.map Version.unflagged }
  have hget₀' : ∀ y, r₀'.get y = (r₀.get y).map Version.unflagged :=
    get_of_perm_map (fun _ => rfl) hrt.nodup (.refl _)
  have hs₀ : SameLinks r₀ r₀' :=
    ⟨by simp only [r₀', ids, List.map_map]; rfl, fun v => by rw [hget₀', Option.map_map]; rfl⟩
  have hn₀' : r₀'.Numbered := hn.congr hs₀ fun w => by
    rw [orders, orders, hget₀']
    cases r₀.get w <;> rfl
  have hi₀' : r₀'.AllInited := fun v u hu => by
    rw [hget₀'] at hu
    obtain ⟨w, hw, rfl⟩ := Option.map_eq_some'.mp hu
    exact hi.shaped.inited v w hw
  -- `r` agrees with it but in links, init flags and orders, and so in everything
  have hids : r.ids.Perm r₀'.ids := by
    rw [(castleVersionsProcess_threads (readLoop_threading hi hperm hloop).1 hproc).2.1.ids, hs₀.1]
    exact hids₁
  have hstored : ∀ y, (r.get y).map Version.stored = (r₀'.get y).map Version.stored := fun y => by
    rw [hst y, hget₁, hget₀', Option.map_map, Option.map_map]
    cases hy : r₀.get y with
    | none => rfl
    | some u => exact congrArg some (stored_restored (restored_links hrt hy).1)
  have hlinks := links_congr (hs₀.linked hi.shaped.linked) hri.shaped.linked hids
    (place_congr hstored hi₀' hri.shaped.inited)
  exact (hn₀'.get_eq hrn (hs₀.rooted hrt) hids (sansOrders_congr hstored hlinks) y).trans (hget₀' y)

theorem writeback_read_round_trip_firstClone :
    firstClone.ids.length ≤ 900 ∧
      ∃ r, castleVersionsRead (castleVersionsWriteback firstClone) freshRegistry = some (r, 0) ∧
        ∀ y, r.get y = (firstClone.get y).map Version.unflagged :=
  ⟨by decide, writeback_read_round_trip (.new .zeroInit castleVersionNew_firstClone)
    firstClone_numbered (by decide) (.refl _)⟩

end Registry
end Versions
end Castle
