import Cachetag.Purgemap.Life
import Cachetag.Wal.Log

/-! The table that a checkpoint is restored into, in the 64-bit arithmetic of `cachetag_purgemap_checkpoint_begin`.

The count of entries comes from a file. Its product with 100, the load of a table and the bytes of a table are
all taken modulo 2^64, so that a large count can end with a table too small for it, or with one that is not there. -/

namespace Cachetag.Restore
open Purgemap LinearProbe

/-- The loop of `cachetag_purgemap_checkpoint_begin`, in `uint64_t`. -/
def sizeLoop (entries : Nat) : Nat → Nat → Except Fault Nat
  | 0, _ => .error .loops
  | fuel + 1, nslot =>
    if entries * 100 % 2 ^ 64 > nslot * maxLoadPercent % 2 ^ 64 then
      if nslot > Purgemap.sizeMax / 2 then .error .efbig else sizeLoop entries fuel (nslot * 2)
    else .ok nslot

/-- The slots that lie in the memory of `cachetag_purgemap_table_new`: what it asks `calloc` for is a `size_t`. -/
def slotsInMemory (nslot : Nat) : Nat := ((16 + nslot * 24) % 2 ^ 64 - 16) / 24

/-- What `cachetag_purgemap_checkpoint_begin` leaves: the map, whose table has the slots that are in memory, and
    the count of slots that is written into the table. -/
structure Begun where
  map : Map
  nslot : Nat
deriving DecidableEq, Repr

/-- `cachetag_purgemap_checkpoint_begin`, the callback of `cachetag_wal_replay_checkpoint`. -/
def checkpointBegin (alloc : Bool) (pm : Map) (c : Wal.CheckpointMeta) : Except Fault Begun :=
  if c.purgeSequence = u64Max ∨ c.hardFloor > c.purgeSequence ∨ c.softFloor > c.purgeSequence ∨
      c.entries > Purgemap.sizeMax then .error .einval
  else if pm.table.isSome ∨ pm.nentry ≠ 0 ∨ pm.seq ≠ 0 then .error .einval
  else
    match sizeLoop c.entries 64 initialSlots with
    | .error f => .error f
    | .ok nslot =>
      let tbl := if c.entries ≠ 0 ∧ alloc then some (Table.new (slotsInMemory nslot)) else none
      if c.entries ≠ 0 ∧ tbl = none then .error .enomem
      else .ok ⟨{ pm with
        table := tbl
        hardFloor := c.hardFloor
        softFloor := c.softFloor
        seq := c.purgeSequence }, nslot⟩

/-- The entry that `cachetag_purgemap_checkpoint_entry` is handed. -/
def entryOf (e : Wal.CheckpointEntry) : Entry := ⟨e.fold, e.hardSequence, e.softSequence⟩

/-- Restoring entries leaves an empty slot, or comes to one that is refused. -/
def LeavesEmpty (pm : Map) (es : List Wal.CheckpointEntry) : Prop :=
  (∃ pm', checkpointEntries (es.map entryOf) pm = .ok pm' ∧
    ∀ t, pm'.table = some t → ∃ i < t.nslot, (t.slot i).fold = EMPTY) ∨
  checkpointEntries (es.map entryOf) pm = .error .einval

/-- The restore of a checkpoint is refused, or it gets a table with room: the announced entries are at most 70
    percent of its slots, the slots are there, and the entries that the replay hands over, in their turn and no
    more than are announced, leave one of them empty. -/
def Sized (alloc : Bool) (pm : Map) (c : Wal.CheckpointMeta) : Prop :=
  (∃ f, f ≠ .loops ∧ checkpointBegin alloc pm c = .error f) ∨
  ∃ b, checkpointBegin alloc pm c = .ok b ∧ c.entries * 100 ≤ b.nslot * maxLoadPercent ∧
    (c.entries ≠ 0 → b.map.table.map Table.nslot = some b.nslot) ∧
    ∀ es : List Wal.CheckpointEntry, es.length ≤ c.entries → (∀ e ∈ es, e.ok c = true) → LeavesEmpty b.map es

/-- The checkpoint that the log expects. -/
def metaOf (wal : Wal.Log) : Wal.CheckpointMeta :=
  ⟨wal.checkpoint.purgeSequence, wal.checkpoint.walSequence, wal.checkpoint.hardFloor, wal.checkpoint.softFloor,
    wal.checkpoint.entries⟩

/-! ### The loop -/

section Loop
variable {entries fuel k : Nat}

theorem sizeLoop_stop (h : entries * 100 % 2 ^ 64 ≤ k * maxLoadPercent % 2 ^ 64) :
    sizeLoop entries (fuel + 1) k = .ok k := by
  rw [sizeLoop, if_neg (Nat.not_lt_of_le h)]

theorem sizeLoop_double (h : k * maxLoadPercent % 2 ^ 64 < entries * 100 % 2 ^ 64) (hk : k ≤ Purgemap.sizeMax / 2) :
    sizeLoop entries (fuel + 1) k = sizeLoop entries fuel (k * 2) := by
  rw [sizeLoop, if_pos h, if_neg (Nat.not_lt_of_le hk)]

/-- No load of a table of up to 2^57 slots wraps. -/
theorem load_lt (h : k ≤ 2 ^ 57) : k * maxLoadPercent % 2 ^ 64 = k * maxLoadPercent := by
  refine Nat.mod_eq_of_lt ?_
  unfold maxLoadPercent
  omega

/-- The loop ends at a table of at most 2^57 slots, if the product in front of it is a load of such a table. -/
theorem sizeLoop_small (hx : entries * 100 % 2 ^ 64 ≤ 2 ^ 57 * maxLoadPercent) (hk : k ≤ 57) (hf : 57 < fuel + k) :
    ∃ j ≤ 57, k ≤ j ∧ sizeLoop entries fuel (2 ^ k) = .ok (2 ^ j) ∧
      entries * 100 % 2 ^ 64 ≤ 2 ^ j * maxLoadPercent := by
  induction fuel generalizing k with
  | zero => omega
  | succ fuel ih =>
    have hle : 2 ^ k ≤ 2 ^ 57 := Nat.pow_le_pow_right (by decide) hk
    by_cases hfit : entries * 100 % 2 ^ 64 ≤ 2 ^ k * maxLoadPercent
    · exact ⟨k, hk, Nat.le_refl _, sizeLoop_stop (by rwa [load_lt hle]), hfit⟩
    · have hlt : k < 57 := by
        refine Nat.lt_of_le_of_ne hk ?_
        rintro rfl
        exact hfit hx
      obtain ⟨j, hj, hkj, hrun, hload⟩ := ih (k := k + 1) hlt (by omega)
      refine ⟨j, hj, Nat.le_of_succ_le hkj, ?_, hload⟩
      rw [sizeLoop_double (by rw [load_lt hle]; exact Nat.lt_of_not_le hfit) (hle.trans (by decide)), ← Nat.pow_succ, hrun]

/-- A product that is no such load doubles the table up to 2^58 slots. -/
theorem sizeLoop_large {n : Nat} (hx : 2 ^ 57 * maxLoadPercent < entries * 100 % 2 ^ 64) (hn : n ≤ 58) :
    sizeLoop entries (n + fuel) (2 ^ (58 - n)) = sizeLoop entries fuel (2 ^ 58) := by
  induction n with
  | zero => rw [Nat.zero_add, Nat.sub_zero]
  | succ n ih =>
    have hle : 2 ^ (58 - (n + 1)) ≤ 2 ^ 57 := Nat.pow_le_pow_right (by decide) (by omega)
    have hlt : 2 ^ (58 - (n + 1)) * maxLoadPercent < entries * 100 % 2 ^ 64 :=
      Nat.lt_of_le_of_lt (Nat.mul_le_mul_right _ hle) hx
    rw [Nat.add_right_comm, sizeLoop_double (by rwa [load_lt hle]) (hle.trans (by decide)), ← Nat.pow_succ,
      show (58 - (n + 1)).succ = 58 - n by omega, ih (by omega)]

/-- From there on the loads wrap: the first one that is large enough is that of 2^61 slots, and a product beyond it
    is refused. -/
theorem sizeLoop_wrapped (hx : 2 ^ 57 * maxLoadPercent < entries * 100 % 2 ^ 64) :
    sizeLoop entries 64 initialSlots =
      if entries * 100 % 2 ^ 64 ≤ 6 * 2 ^ 61 then .ok (2 ^ 61) else .error .efbig := by
  have hx' : 2 ^ 57 * 70 < entries * 100 % 2 ^ 64 := hx
  have h58 : 2 ^ 58 * maxLoadPercent % 2 ^ 64 = 3 * 2 ^ 59 := by decide
  have h59 : 2 ^ 59 * maxLoadPercent % 2 ^ 64 = 3 * 2 ^ 60 := by decide
  have h60 : 2 ^ 60 * maxLoadPercent % 2 ^ 64 = 3 * 2 ^ 61 := by decide
  have h61 : 2 ^ 61 * maxLoadPercent % 2 ^ 64 = 6 * 2 ^ 61 := by decide
  have h62 : 2 ^ 62 * maxLoadPercent % 2 ^ 64 = 2 ^ 63 := by decide
  have h63 : 2 ^ 63 * maxLoadPercent % 2 ^ 64 = 0 := by decide
  rw [show initialSlots = 2 ^ (58 - 54) from rfl, show 64 = 54 + 10 from rfl, sizeLoop_large hx (by decide),
    sizeLoop_double (by rw [h58]; omega) (by decide), ← Nat.pow_succ,
    sizeLoop_double (by rw [h59]; omega) (by decide), ← Nat.pow_succ,
    sizeLoop_double (by rw [h60]; omega) (by decide), ← Nat.pow_succ]
  by_cases hstop : entries * 100 % 2 ^ 64 ≤ 6 * 2 ^ 61
  · rw [if_pos hstop, sizeLoop_stop (by rwa [h61])]
  · rw [if_neg hstop, sizeLoop_double (by rw [h61]; omega) (by decide), ← Nat.pow_succ,
      sizeLoop_double (by rw [h62]; omega) (by decide), ← Nat.pow_succ, sizeLoop,
      if_pos (by rw [h63]; omega), if_pos (by decide)]

end Loop

/-! ### The table -/

/-- The checks of `cachetag_purgemap_checkpoint_begin` ahead of its loop fail, of what a replay hands over. -/
def Refused (pm : Map) (c : Wal.CheckpointMeta) : Prop :=
  (c.purgeSequence = u64Max ∨ c.hardFloor > c.purgeSequence ∨ c.softFloor > c.purgeSequence) ∨
    pm.table.isSome ∨ pm.nentry ≠ 0 ∨ pm.seq ≠ 0

section Table
variable {alloc : Bool} {pm : Map} {c : Wal.CheckpointMeta} {cfg : Purgemap.Config} {s : Life} {es : List Entry}
  {nslot j : Nat} {f : Fault}

theorem refused_eq (h : Refused pm c) : checkpointBegin alloc pm c = .error .einval := by
  rw [checkpointBegin]
  by_cases hhead : c.purgeSequence = u64Max ∨ c.hardFloor > c.purgeSequence ∨ c.softFloor > c.purgeSequence ∨
      c.entries > Purgemap.sizeMax
  · rw [if_pos hhead]
  · rw [if_neg hhead, if_pos]
    refine h.resolve_left fun hbad => hhead ?_
    rcases hbad with hseq | hhard | hsoft
    · exact .inl hseq
    · exact .inr (.inl hhard)
    · exact .inr (.inr (.inl hsoft))

theorem passed (h : ¬Refused pm c) (hc : c.entries ≤ Purgemap.sizeMax) :
    ¬(c.purgeSequence = u64Max ∨ c.hardFloor > c.purgeSequence ∨ c.softFloor > c.purgeSequence ∨
      c.entries > Purgemap.sizeMax) ∧ ¬(pm.table.isSome ∨ pm.nentry ≠ 0 ∨ pm.seq ≠ 0) := by
  rw [Refused, not_or] at h
  refine ⟨?_, h.2⟩
  rintro (hseq | hhard | hsoft | hbig)
  · exact h.1 (.inl hseq)
  · exact h.1 (.inr (.inl hhard))
  · exact h.1 (.inr (.inr hsoft))
  · exact Nat.not_lt_of_le hc hbig

/-- The map that the entries are read into. -/
def begunMap (pm : Map) (c : Wal.CheckpointMeta) (tbl : Option Purgemap.Table) : Map :=
  { pm with
    table := tbl
    hardFloor := c.hardFloor
    softFloor := c.softFloor
    seq := c.purgeSequence }

theorem passed_ok (h : ¬Refused pm c) (hc : c.entries ≤ Purgemap.sizeMax) (hrun : sizeLoop c.entries 64 initialSlots = .ok nslot) :
    checkpointBegin alloc pm c =
      if c.entries = 0 then .ok ⟨begunMap pm c none, nslot⟩
      else if alloc then .ok ⟨begunMap pm c (some (Table.new (slotsInMemory nslot))), nslot⟩
      else .error .enomem := by
  obtain ⟨hhead, hfresh⟩ := passed h hc
  rw [checkpointBegin, if_neg hhead, if_neg hfresh, hrun]
  dsimp only
  by_cases h0 : c.entries = 0
  · simp [h0, begunMap]
  · cases alloc <;> simp [h0, begunMap]

theorem passed_error (h : ¬Refused pm c) (hc : c.entries ≤ Purgemap.sizeMax) (hrun : sizeLoop c.entries 64 initialSlots = .error f) :
    checkpointBegin alloc pm c = .error f := by
  obtain ⟨hhead, hfresh⟩ := passed h hc
  rw [checkpointBegin, if_neg hhead, if_neg hfresh, hrun]

/-- Up to 2^57 slots all of a table is in memory. -/
theorem slotsInMemory_eq (h : nslot ≤ 2 ^ 57) : slotsInMemory nslot = nslot := by
  rw [slotsInMemory, Nat.mod_eq_of_lt (by omega)]
  omega

/-- The map is in order when it has begun. -/
theorem begunMap_wf (hs : s.Inv) (h : ¬Refused s.map c) {tbl : Option Purgemap.Table}
    (htbl : ∀ t, tbl = some t → ∃ n, PowTwo n ∧ initialSlots ≤ n ∧ t = Table.new n) :
    (begunMap s.map c tbl).WF ∧ (begunMap s.map c tbl).nentry = 0 := by
  rw [Refused, not_or] at h
  have hempty := hs.empty h.2
  obtain ⟨hwf, -⟩ := begun_spec ⟨c.purgeSequence, c.hardFloor, c.softFloor, c.entries, []⟩ tbl htbl
  rw [hempty]
  exact ⟨hwf.with_memo, rfl⟩

/-- Entries that are restored one by one into a map with room keep it in order, or one of them is refused. -/
theorem entries_restored (h : pm.WF) (hroom : es ≠ [] → pm.Room es.length) (hl : ∀ e ∈ es, e.Live) :
    (∃ pm', checkpointEntries es pm = .ok pm' ∧ pm'.WF) ∨ checkpointEntries es pm = .error .einval := by
  induction es generalizing pm with
  | nil => exact .inl ⟨pm, rfl, h⟩
  | cons e es ih =>
    have hroom : pm.Room (es.length + 1) := hroom (List.cons_ne_nil _ _)
    have hlive := hl e List.mem_cons_self
    by_cases hdup : ∃ x ∈ pm.live, x.fold = e.fold
    · exact .inr (by rw [checkpointEntries, checkpointEntry_dup h hlive hdup])
    · push Not at hdup
      obtain ⟨t, hok, hwf, -, hnslot⟩ := checkpointEntry_spec h hroom.one hlive hdup
      rw [checkpointEntries, hok]
      refine ih hwf (fun _ => ?_) fun x hx => hl x (List.mem_cons_of_mem _ hx)
      obtain ⟨u, hu, hload⟩ := hroom
      rw [hu, Option.map_some, Option.some.injEq] at hnslot
      exact ⟨t, rfl, by dsimp only; rw [← hnslot]; omega⟩

theorem entryOf_live {e : Wal.CheckpointEntry} (h : e.ok c = true) : (entryOf e).Live := by
  simp only [Wal.CheckpointEntry.ok, Bool.not_eq_true', Bool.or_eq_false_iff, decide_eq_false_iff_not] at h
  exact ⟨h.1.1.1.1, h.1.1.1.2⟩

theorem WF.leavesEmpty (h : pm.WF) {es : List Wal.CheckpointEntry} (hroom : es ≠ [] → pm.Room es.length)
    (hok : ∀ e ∈ es, e.ok c = true) : LeavesEmpty pm es := by
  have hlive : ∀ x ∈ es.map entryOf, x.Live := by
    intro x hx
    obtain ⟨e, he, rfl⟩ := List.mem_map.mp hx
    exact entryOf_live (hok e he)
  have hroom' : es.map entryOf ≠ [] → pm.Room (es.map entryOf).length := by
    intro hne
    rw [List.length_map]
    exact hroom fun hnil => hne (by rw [hnil]; rfl)
  rcases entries_restored h hroom' hlive with ⟨pm', hrun, hwf⟩ | herr
  · exact .inl ⟨pm', hrun, fun t ht => (hwf.table t ht).1.exists_empty (hwf.room ht)⟩
  · exact .inr herr

/-- A count whose table has no more than 2^57 slots is restored into a table with room. -/
theorem sized_small (hs : s.Inv) (h : ¬Refused s.map c) (hc : c.entries ≤ Purgemap.sizeMax)
    (hsmall : c.entries * 100 ≤ 2 ^ 57 * maxLoadPercent) :
    Sized alloc s.map c := by
  have hmod : c.entries * 100 % 2 ^ 64 = c.entries * 100 := Nat.mod_eq_of_lt (Nat.lt_of_le_of_lt hsmall (by decide))
  obtain ⟨j, hj, h4, hrun, hload⟩ : ∃ j ≤ 57, 4 ≤ j ∧ sizeLoop c.entries 64 (2 ^ 4) = .ok (2 ^ j) ∧ _ :=
    sizeLoop_small (by rwa [hmod]) (by decide) (by decide)
  have hpow : 2 ^ j ≤ 2 ^ 57 := Nat.pow_le_pow_right (by decide) hj
  have hbig : initialSlots ≤ 2 ^ j := Nat.pow_le_pow_right (n := 2) (by decide) h4
  rw [hmod] at hload
  have heq : checkpointBegin alloc s.map c = _ := passed_ok h hc hrun
  by_cases h0 : c.entries = 0
  · rw [if_pos h0] at heq
    refine .inr ⟨_, heq, hload, fun hne => absurd h0 hne, fun es hlen hok => ?_⟩
    have hnil : es = [] := List.eq_nil_of_length_eq_zero (Nat.le_zero.mp (h0 ▸ hlen))
    rw [hnil]
    exact .inl ⟨_, rfl, fun t ht => absurd ht (Option.some_ne_none t).symm⟩
  · rw [if_neg h0] at heq
    cases alloc with
    | false => exact .inl ⟨.enomem, by decide, heq⟩
    | true =>
      rw [if_pos rfl, slotsInMemory_eq hpow] at heq
      refine .inr ⟨_, heq, hload, fun _ => by simp [begunMap], fun es hlen hok => ?_⟩
      obtain ⟨hwf, hn⟩ : (begunMap s.map c (some (Table.new (2 ^ j)))).WF ∧ _ :=
        begunMap_wf hs h fun t ht => ⟨2 ^ j, ⟨j, rfl⟩, hbig, (Option.some.inj ht).symm⟩
      refine WF.leavesEmpty hwf (fun _ => ⟨Table.new (2 ^ j), rfl, ?_⟩) hok
      rw [hn, Table.nslot_new]
      omega

/-- A count whose table would be larger is refused where the loop runs out of sizes or the allocation fails. -/
theorem large_refused (h : ¬Refused pm c) (hc : c.entries ≤ Purgemap.sizeMax)
    (hlarge : 2 ^ 57 * maxLoadPercent < c.entries * 100) (hwhy : alloc = false ∨ 6 * 2 ^ 61 < c.entries * 100 % 2 ^ 64) :
    ∃ f, f ≠ .loops ∧ checkpointBegin alloc pm c = .error f := by
  have hne : c.entries ≠ 0 := by omega
  by_cases hstop : c.entries * 100 % 2 ^ 64 ≤ 6 * 2 ^ 61
  · obtain rfl := hwhy.resolve_right (Nat.not_lt_of_le hstop)
    have hends : ∃ nslot, sizeLoop c.entries 64 initialSlots = .ok nslot := by
      by_cases hx : c.entries * 100 % 2 ^ 64 ≤ 2 ^ 57 * maxLoadPercent
      · obtain ⟨j, -, -, hrun, -⟩ : ∃ j ≤ 57, 4 ≤ j ∧ sizeLoop c.entries 64 (2 ^ 4) = .ok (2 ^ j) ∧ _ :=
          sizeLoop_small hx (by decide) (by decide)
        exact ⟨_, hrun⟩
      · exact ⟨_, by rw [sizeLoop_wrapped (Nat.lt_of_not_le hx), if_pos hstop]⟩
    obtain ⟨nslot, hrun⟩ := hends
    exact ⟨.enomem, by decide, by rw [passed_ok h hc hrun, if_neg hne, if_neg Bool.false_ne_true]⟩
  · have hx : 2 ^ 57 * maxLoadPercent < c.entries * 100 % 2 ^ 64 := by
      unfold maxLoadPercent
      omega
    exact ⟨.efbig, by decide, passed_error h hc (by rw [sizeLoop_wrapped hx, if_neg hstop])⟩

/-- A count whose table would be larger is restored into one without room, unless something refuses it. -/
theorem sized_large (h : ¬Refused pm c) (hc : c.entries ≤ Purgemap.sizeMax) (halloc : alloc = true)
    (hlarge : 2 ^ 57 * maxLoadPercent < c.entries * 100) :
    Sized alloc pm c ↔ 6 * 2 ^ 61 < c.entries * 100 % 2 ^ 64 := by
  refine ⟨fun hsized => ?_, fun hbig => .inl (large_refused h hc hlarge (.inr hbig))⟩
  by_contra hstop
  have hne : c.entries ≠ 0 := by omega
  by_cases hx : c.entries * 100 % 2 ^ 64 ≤ 2 ^ 57 * maxLoadPercent
  · -- The product wraps to that of a small count.
    obtain ⟨j, hj, -, hrun, -⟩ : ∃ j ≤ 57, 4 ≤ j ∧ sizeLoop c.entries 64 (2 ^ 4) = .ok (2 ^ j) ∧ _ :=
      sizeLoop_small hx (by decide) (by decide)
    have heq : checkpointBegin alloc pm c = _ := passed_ok h hc hrun
    rw [if_neg hne, if_pos halloc] at heq
    rcases hsized with ⟨f, -, herr⟩ | ⟨b, hok, hload, -⟩
    · rw [heq] at herr
      cases herr
    · rw [heq] at hok
      cases hok
      have hpow : 2 ^ j * maxLoadPercent ≤ 2 ^ 57 * maxLoadPercent :=
        Nat.mul_le_mul_right _ (Nat.pow_le_pow_right (by decide) hj)
      exact absurd (hload.trans hpow) (Nat.not_le_of_lt hlarge)
  · -- The loop ends at 2^61 slots, whose bytes wrap to those of none.
    have hrun := sizeLoop_wrapped (Nat.lt_of_not_le hx)
    rw [if_pos (Nat.le_of_not_lt hstop)] at hrun
    have heq : checkpointBegin alloc pm c = _ := passed_ok h hc hrun
    rw [if_neg hne, if_pos halloc, show slotsInMemory (2 ^ 61) = 0 from rfl] at heq
    rcases hsized with ⟨f, -, herr⟩ | ⟨b, hok, -, hmem, -⟩
    · rw [heq] at herr
      cases herr
    · rw [heq] at hok
      cases hok
      have hnslot : some 0 = some (2 ^ 61) := hmem hne
      cases hnslot

end Table

/-- The count that a replay hands over is one of 64 bits. -/
theorem entries_le {csum : Wal.Bytes → UInt64} {wal : Wal.Log} {hdr : Wal.Bytes}
    (hok : Wal.checkpointHeaderOk csum wal hdr = true) : (metaOf wal).entries ≤ Purgemap.sizeMax := by
  simp only [Wal.checkpointHeaderOk, Bool.and_eq_true, decide_eq_true_eq] at hok
  have hmax : wal.checkpoint.entries ≤ Wal.checkpointEntriesMax := hok.1.2
  exact hmax.trans (by decide)

/-- Whatever checkpoint a replay has found to be the one it expects: it is refused, its table is not allocated, or
    it gets a table with room for its entries, if and only if a table of 2^57 slots has room for them or the
    product of their count with 100 wraps to more than the largest load that wraps. -/
theorem checkpoint_sizing (csum : Wal.Bytes → UInt64) (cfg : Purgemap.Config) (s : Life) (alloc : Bool) (wal : Wal.Log)
    (hdr : Wal.Bytes) (hs : Machine.Reach (Life.step cfg) Machine.always Life.init s)
    (hok : Wal.checkpointHeaderOk csum wal hdr = true) :
    Sized alloc s.map (metaOf wal) ↔
      Refused s.map (metaOf wal) ∨ alloc = false ∨ wal.checkpoint.entries * 100 ≤ 2 ^ 57 * maxLoadPercent ∨
        6 * 2 ^ 61 < wal.checkpoint.entries * 100 % 2 ^ 64 := by
  have hc := entries_le hok
  by_cases href : Refused s.map (metaOf wal)
  · exact iff_of_true (.inl ⟨.einval, by decide, refused_eq href⟩) (.inl href)
  by_cases hsmall : wal.checkpoint.entries * 100 ≤ 2 ^ 57 * maxLoadPercent
  · exact iff_of_true (sized_small (Life.reach_inv hs) href hc hsmall) (.inr (.inr (.inl hsmall)))
  have hlarge : 2 ^ 57 * maxLoadPercent < (metaOf wal).entries * 100 := Nat.lt_of_not_le hsmall
  cases alloc with
  | false => exact iff_of_true (.inl (large_refused href hc hlarge (.inl rfl))) (.inr (.inl rfl))
  | true =>
    rw [sized_large href hc rfl hlarge]
    refine ⟨fun hbig => .inr (.inr (.inr hbig)), ?_⟩
    rintro (hbad | hbad | hbad | hbig)
    · exact absurd hbad href
    · cases hbad
    · exact absurd hbad hsmall
    · exact hbig

/-- A log whose manifest names a checkpoint of so many entries. -/
def expecting (entries : Nat) : Wal.Log :=
  { Wal.Log.new ⟨[], by simp⟩ 0 (List.replicate 16 0) with
    checkpoint := ⟨1, 9, 0, 2, 3, entries, 88 + entries * 24 + 8, 0⟩ }

/-- The header that the file of this checkpoint has. -/
def expectedHeader (entries : Nat) : Wal.Bytes :=
  Wal.checkpointHeader (fun _ => 0) (expecting entries) (metaOf (expecting entries)) 1

theorem checkpoint_sizing_eleven :
    Wal.checkpointHeaderOk (fun _ => 0) (expecting 11) (expectedHeader 11) = true ∧
      Sized true Map.init (metaOf (expecting 11)) := by
  have hok : Wal.checkpointHeaderOk (fun _ => 0) (expecting 11) (expectedHeader 11) = true := by decide
  refine ⟨hok, ?_⟩
  exact (checkpoint_sizing (fun _ => 0) ⟨1, true⟩ Life.init true (expecting 11) (expectedHeader 11) .init hok).mpr
    (.inr (.inr (.inl (by decide))))

/-- A count whose product with 100 wraps to 84 passes every check, and its table has 16 slots. One whose product does
    not wrap gets a table of 2^61 slots, none of which is in memory. -/
theorem count_wraps :
    Wal.checkpointHeaderOk (fun _ => 0) (expecting 184467440737095517) (expectedHeader 184467440737095517) = true ∧
      (checkpointBegin true Map.init (metaOf (expecting 184467440737095517))).map Begun.nslot = .ok 16 ∧
      ¬Sized true Map.init (metaOf (expecting 184467440737095517)) ∧
      (checkpointBegin true Map.init (metaOf (expecting 120000000000000000))).map
        (fun b => (b.nslot, b.map.table.map Table.nslot)) = .ok (2 ^ 61, some 0) := by
  refine ⟨by decide, by decide, fun h => ?_, by decide⟩
  have hrefused : ¬Refused Map.init (metaOf (expecting 184467440737095517)) := by
    simp [Refused, metaOf, expecting, Map.init, u64Max]
  exact absurd ((sized_large hrefused (by decide) rfl (by decide)).mp h) (by decide)

/-! ### The life of a map that is restored from what a file announces -/

/-- What a replay hands over of a checkpoint. -/
def announced (c : Purgemap.Checkpoint) : Wal.CheckpointMeta := ⟨c.purgeSequence, 0, c.hardFloor, c.softFloor, c.entries⟩

/-- A move of `Life`, with the begin of a restore in 64-bit arithmetic. -/
def move (cfg : Purgemap.Config) (s : Life) (m : Move) : Option (Except Fault Life) :=
  match m with
  | .restoreBegin c env =>
    match s.turn with
    | .idle =>
      if u64Max < c.purgeSequence then none
      else some <| orElse (checkpointBegin env.tableAlloc s.map (announced c)) s fun b =>
        ⟨b.map, .restoring c.purgeSequence c.entries⟩
    | _ => none
  | m => s.move cfg m

def step (cfg : Purgemap.Config) (s : Life) (m : Move) : Option Life := (move cfg s m).bind Except.toOption

/-- Nothing is restored whose count gets past the checks, and whose table is allocated, without room for it. -/
def CountFits (s : Life) (m : Move) : Prop :=
  match m with
  | .restoreBegin c env =>
    Refused s.map (announced c) ∨ Purgemap.sizeMax < c.entries ∨ env.tableAlloc = false ∨
      c.entries * 100 ≤ 2 ^ 57 * maxLoadPercent ∨ 6 * 2 ^ 61 < c.entries * 100 % 2 ^ 64
  | _ => True

section Moves
variable {alloc : Bool} {pm : Map} {c : Wal.CheckpointMeta} {cfg : Purgemap.Config} {s t : Life} {m : Move}
  {r : Except Fault Life}

theorem move_eq (h : ∀ c env, m ≠ .restoreBegin c env) : move cfg s m = s.move cfg m := by
  cases m with
  | restoreBegin c env => exact absurd rfl (h c env)
  | _ => rfl

theorem too_many (h : Purgemap.sizeMax < c.entries) : checkpointBegin alloc pm c = .error .einval := by
  rw [checkpointBegin, if_pos (.inr (.inr (.inr h)))]

/-- A restore that has begun with a small count leaves a map in order, with room for what is announced. -/
theorem begun_in_order {env : Env} {c : Purgemap.Checkpoint} (hs : s.Inv) (h : ¬Refused s.map (announced c))
    (hc : c.entries ≤ Purgemap.sizeMax) (hlast : c.purgeSequence ≤ u64Max)
    (hsmall : c.entries * 100 ≤ 2 ^ 57 * maxLoadPercent) :
    Fine (orElse (checkpointBegin env.tableAlloc s.map (announced c)) s fun b =>
      ⟨b.map, .restoring c.purgeSequence c.entries⟩) := by
  have hmod : c.entries * 100 % 2 ^ 64 = c.entries * 100 := Nat.mod_eq_of_lt (Nat.lt_of_le_of_lt hsmall (by decide))
  -- A count this small makes nothing wrap: the table has a power of two of slots, with room for the entries.
  obtain ⟨j, hj, h4, hrun, hload⟩ : ∃ j ≤ 57, 4 ≤ j ∧ sizeLoop c.entries 64 (2 ^ 4) = .ok (2 ^ j) ∧ _ :=
    sizeLoop_small (by rwa [hmod]) (by decide) (by decide)
  have hpow : 2 ^ j ≤ 2 ^ 57 := Nat.pow_le_pow_right (by decide) hj
  have hbig : initialSlots ≤ 2 ^ j := Nat.pow_le_pow_right (n := 2) (by decide) h4
  rw [hmod] at hload
  have hbegun : ∀ tbl : Option Purgemap.Table,
      (∀ t, tbl = some t → t = Table.new (2 ^ j)) → (c.entries ≠ 0 → tbl = some (Table.new (2 ^ j))) →
      Life.Inv ⟨begunMap s.map (announced c) tbl, .restoring c.purgeSequence c.entries⟩ := by
    intro tbl htbl hsome
    obtain ⟨hwf, hn⟩ : (begunMap s.map (announced c) tbl).WF ∧ _ :=
      begunMap_wf hs h fun t ht => ⟨2 ^ j, ⟨j, rfl⟩, hbig, htbl t ht⟩
    have hnil : (begunMap s.map (announced c) tbl).live = [] := List.eq_nil_of_length_eq_zero (hwf.count.symm.trans hn)
    obtain ⟨-, hhard, hsoft⟩ : c.purgeSequence ≠ u64Max ∧ c.hardFloor ≤ c.purgeSequence ∧ c.softFloor ≤ c.purgeSequence := by
      rw [Refused, not_or] at h
      exact ⟨fun heq => h.1 (.inl heq), Nat.le_of_not_lt fun hgt => h.1 (.inr (.inl hgt)),
        Nat.le_of_not_lt fun hgt => h.1 (.inr (.inr hgt))⟩
    refine ⟨hwf, ⟨fun e he => ?_, hhard, hsoft⟩, fun t ht => ?_, hlast, rfl, fun hne => ?_⟩
    · rw [hnil] at he
      cases he
    · rw [htbl t ht, Table.nslot_new]
      unfold Purgemap.sizeMax
      omega
    · refine ⟨_, hsome hne, ?_⟩
      rw [hn, Table.nslot_new, Nat.zero_add]
      exact hload
  have heq : checkpointBegin env.tableAlloc s.map (announced c) = _ := passed_ok h hc hrun
  rw [slotsInMemory_eq hpow] at heq
  -- An empty image gets no table.
  by_cases h0 : (announced c).entries = 0
  · rw [if_pos h0] at heq
    exact Fine.of_ok heq (hbegun none (fun t ht => absurd ht (Option.some_ne_none t).symm) fun hne => absurd h0 hne)
  · rw [if_neg h0] at heq
    by_cases halloc : env.tableAlloc = true
    · rw [if_pos halloc] at heq
      exact Fine.of_ok heq (hbegun (some (Table.new (2 ^ j))) (fun t ht => (Option.some.inj ht).symm) fun _ => rfl)
    · rw [if_neg halloc] at heq
      exact Fine.of_error hs heq (by decide)

theorem move_fine (hs : s.Inv) (hok : CountFits s m) (hm : move cfg s m = some r) : Fine r := by
  cases m with
  | restoreBegin c env =>
    unfold move at hm
    dsimp only at hm
    split at hm
    · split at hm
      · cases hm
      · rename_i hlast
        cases hm
        by_cases href : Refused s.map (announced c)
        · exact Fine.of_error hs (refused_eq href) (by decide)
        · by_cases hmany : Purgemap.sizeMax < c.entries
          · exact Fine.of_error hs (too_many hmany) (by decide)
          · by_cases hsmall : c.entries * 100 ≤ 2 ^ 57 * maxLoadPercent
            · exact begun_in_order hs href (Nat.le_of_not_lt hmany) (Nat.le_of_not_lt hlast) hsmall
            · have hwhy := ((hok.resolve_left href).resolve_left hmany)
              obtain ⟨f, hf, herr⟩ := large_refused href (Nat.le_of_not_lt hmany)
                (Nat.lt_of_not_le hsmall) (hwhy.imp_right fun h => h.resolve_left hsmall)
              exact Fine.of_error hs herr hf
    · cases hm
  | _ =>
    rw [move_eq (by rintro c env ⟨⟩)] at hm
    exact hs.move hm

theorem reach_inv (h : Machine.Reach (step cfg) CountFits Life.init s) : s.Inv := by
  refine h.inv Life.Inv.init ?_
  intro s t m _ hi hok hst
  obtain ⟨r, hr, ht⟩ := Option.bind_eq_some_iff.mp hst
  cases r with
  | ok u =>
    cases ht
    exact (move_fine hi hok hr).2 t rfl
  | error => cases ht

end Moves

/-- Whatever purges, batches, rebuilds, prunes, rollbacks, reclaims, replays and restores a map has gone through, and
    at whatever point of one it stands, if the table of no restore was too small for its count: its table is in order,
    and no entry is without a purge or behind the map's sequence. So every probe ends, whatever its fold, no move hangs,
    and the upserts of a prepared purge all find a slot. -/
theorem restored_in_order (cfg : Purgemap.Config) (s : Life) (h : Machine.Reach (step cfg) CountFits Life.init s) :
    s.map.WF ∧ s.map.Below s.map.seq ∧
      (∀ regSeq fold, ∃ v, probeOne s.map.table regSeq fold = some v) ∧
      (∀ m, CountFits s m → move cfg s m ≠ some (.error .loops)) ∧
      ∀ seq mode f left, s.turn = .upserts seq mode (f :: left) →
        ∃ pm', applyUpsert s.map f.val seq mode = .ok pm' := by
  have hinv := reach_inv h
  refine ⟨hinv.wf, hinv.below, fun _ _ => hinv.wf.probeOne_ends, ?_, ?_⟩
  · intro m hok hm
    exact (move_fine hinv hok hm).1 rfl
  · intro seq mode f left ht
    obtain ⟨pm', hup, -⟩ := hinv.finds ht
    exact ⟨pm', hup⟩

theorem restored_in_order_batch :
    ∃ s, Machine.run (step ⟨1, true⟩) Life.init
        [.restoreBegin ⟨9, 2, 3, 1, []⟩ .ok, .restoreEntry ⟨5, 9, 0⟩, .restoreEnd, .purgeBatch [⟨0, 7⟩, ⟨0, 9⟩] .soft .ok] =
          some s ∧
      s.map.WF ∧ ∃ pm', applyUpsert s.map 7 10 .soft = .ok pm' := by
  obtain ⟨s₁, h₁⟩ : ∃ s, step ⟨1, true⟩ Life.init (.restoreBegin ⟨9, 2, 3, 1, []⟩ .ok) = some s := ⟨_, rfl⟩
  obtain ⟨s₂, h₂⟩ : ∃ s, step ⟨1, true⟩ s₁ (.restoreEntry ⟨5, 9, 0⟩) = some s := by
    cases h₁
    exact ⟨_, rfl⟩
  obtain ⟨s₃, h₃⟩ : ∃ s, step ⟨1, true⟩ s₂ .restoreEnd = some s := by
    cases h₁
    cases h₂
    exact ⟨_, rfl⟩
  obtain ⟨s₄, h₄, hturn⟩ : ∃ s, step ⟨1, true⟩ s₃ (.purgeBatch [⟨0, 7⟩, ⟨0, 9⟩] .soft .ok) = some s ∧
      s.turn = .upserts 10 .soft [foldDigest ⟨0, 7⟩, foldDigest ⟨0, 9⟩] := by
    cases h₁
    cases h₂
    cases h₃
    exact ⟨_, rfl, rfl⟩
  have hfits : CountFits Life.init (.restoreBegin ⟨9, 2, 3, 1, []⟩ .ok) := .inr (.inr (.inr (.inl (by decide))))
  have hreach : Machine.Reach (step ⟨1, true⟩) CountFits Life.init s₄ :=
    .step (.purgeBatch [⟨0, 7⟩, ⟨0, 9⟩] .soft .ok) (.step .restoreEnd (.step (.restoreEntry ⟨5, 9, 0⟩)
      (.step _ .init hfits h₁) trivial h₂) trivial h₃) trivial h₄
  obtain ⟨hwf, -, -, -, hfinds⟩ := restored_in_order ⟨1, true⟩ s₄ hreach
  refine ⟨s₄, ?_, hwf, hfinds 10 .soft (foldDigest ⟨0, 7⟩) _ hturn⟩
  simp only [Machine.run_cons, h₁, h₂, h₃, h₄, Option.bind_some, Machine.run_nil]

/-- The product of the count with 100 does not wrap, but the load of the table that it asks for does. -/
theorem load_wraps :
    120000000000000000 * 100 < 2 ^ 64 ∧
    ∃ s, Machine.run (step ⟨1, true⟩) Life.init [.restoreBegin ⟨9, 2, 3, 120000000000000000, []⟩ .ok] = some s ∧
      ¬s.map.WF := by
  refine ⟨by decide, ?_⟩
  obtain ⟨s, hs, htable⟩ : ∃ s, step ⟨1, true⟩ Life.init (.restoreBegin ⟨9, 2, 3, 120000000000000000, []⟩ .ok) = some s ∧
      s.map.table = some (Table.new 0) := ⟨_, rfl, rfl⟩
  refine ⟨s, by rw [Machine.run_cons, hs, Option.bind_some, Machine.run_nil], fun hwf => ?_⟩
  exact absurd (hwf.table _ htable).1.big (by decide)

end Cachetag.Restore
