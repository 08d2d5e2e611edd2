import Cachetag.Volatile.Refine

/-! A sweep of the volatile index against the objects that were there when it began. An object goes by the
number of the attach that wrote it, which no other object ever has. -/

namespace Cachetag.Index
open SideIndex

variable {α : Type*} {cfg : Config α} {s s' : Index α} {ent : ObjEnt α ObjVal} {a i : Nat}

/-- The objects in the dense array. -/
def stamps (s : Index α) : List Nat := s.side.objects.map (·.val.call)

/-- The objects in the slots that the sweep has not reached yet. -/
def unscanned (s : Index α) : List Nat := s.stamps.take s.side.sweepRemaining

/-- The history of the last sweep: the objects at its start, its probes with their verdicts, the objects that
    it removed, those that something else removed, and those that were attached since its start. -/
structure Sweep where
  start : List Nat
  probed : List (Nat × Verdict)
  killed : List Nat
  gone : List Nat
  joined : List Nat

/-- Before the first sweep. -/
def Sweep.none : Sweep := ⟨[], [], [], [], []⟩

/-- The objects of one state that the other one does not have. -/
def without (s s' : Index α) : List Nat := s.stamps.filter fun i => i ∉ s'.stamps

/-- What a section adds to the history. -/
def Sweep.note (s : Index α) (e : IndexEvent α) (s' : Index α) (l : Sweep) : Sweep :=
  match e with
  | .sweepStart => ⟨s.stamps, [], [], [], []⟩
  | .sweepProbe verdict =>
    { l with
      probed := l.probed ++ (s.stamps[s.side.sweepRemaining - 1]?.map fun i => (i, verdict)).toList
      killed := l.killed ++ without s s' }
  | _ => { l with gone := l.gone ++ without s s', joined := l.joined ++ without s' s }

/-- Where a sweep stands: nothing was probed twice or that had not been there, the unscanned objects are those
    of the start that are neither probed nor gone, and the sweep removed what it found covered by a hard purge. -/
structure Scans (s : Index α) (l : Sweep) : Prop where
  once : (l.probed.map Prod.fst).Nodup
  began : ∀ x ∈ l.probed, x.1 ∈ l.start
  joined : ∀ i ∈ l.joined, i ∉ l.start
  unscanned : ∀ i, i ∈ s.unscanned ↔ i ∈ l.start ∧ i ∉ l.probed.map Prod.fst ∧ i ∉ l.gone
  killed : ∀ i, i ∈ l.killed ↔ (i, .hard) ∈ l.probed
  done : ∀ i ∈ l.start, ∃ c, s.calls[i]? = some c ∧ c.point = .done none

theorem Rests.stamps (h : Rests s s') : s'.stamps = s.stamps := by
  unfold Index.stamps
  rw [h.objects]

theorem without_eq_nil (h : ∀ i ∈ s.stamps, i ∈ s'.stamps) : without s s' = [] :=
  List.filter_eq_nil_iff.mpr fun i hi => by simpa using h i hi

/-- A section that leaves the objects alone leaves the scan alone. -/
theorem Scans.rest {l : Sweep} (h : Scans s l) (hr : Rests s s') :
    Scans s' { l with gone := l.gone ++ without s s', joined := l.joined ++ without s' s } := by
  rw [without_eq_nil fun i hi => by rwa [hr.stamps], without_eq_nil fun i hi => by rwa [← hr.stamps],
    List.append_nil, List.append_nil]
  refine ⟨h.once, h.began, h.joined, fun i => ?_, h.killed, fun i hi => ?_⟩
  · unfold Index.unscanned
    rw [hr.stamps, hr.sweepRemaining]
    exact h.unscanned i
  · obtain ⟨c, hc, hd⟩ := h.done i hi
    exact ⟨c, hr.calls i c hc hd, hd⟩

/-- An attach appends behind the slots that are left. -/
theorem Scans.attach {l : Sweep} {c : AttachCall α} (h : Scans s l) (hinv : Inv cfg s)
    (hact : s.side.sweepActive = true) (hc : s.calls[i]? = some c) (hatt : Attached cfg s s' i c) :
    Scans s' { l with gone := l.gone ++ without s s', joined := l.joined ++ without s' s } := by
  obtain ⟨ent, hobj, -, rfl, -⟩ := hatt.objects
  have hstamps : s'.stamps = s.stamps ++ [ent.val.call] := by
    rw [Index.stamps, hobj, List.map_append]
    rfl
  rw [without_eq_nil fun i hi => by rw [hstamps]; exact List.mem_append_left _ hi, List.append_nil]
  refine ⟨h.once, h.began, fun j hj => ?_, fun j => ?_, h.killed, fun j hj => ?_⟩
  · rcases List.mem_append.mp hj with hj | hj
    · exact h.joined j hj
    · obtain ⟨hj, hnot⟩ := List.mem_filter.mp hj
      rw [hstamps] at hj
      rcases List.mem_append.mp hj with hj | hj
      · exact absurd hj (by simpa using hnot)
      · cases List.mem_singleton.mp hj
        intro hstart
        obtain ⟨d, hd, hdone⟩ := h.done _ hstart
        cases hc.symm.trans hd
        exact hatt.waiting _ hdone
  · unfold Index.unscanned
    rw [hstamps, hatt.sweepRemaining,
      List.take_append_of_le_length (by rw [Index.stamps, List.length_map]; exact hinv.sound.sweep hact)]
    exact h.unscanned j
  · obtain ⟨d, hd, hdone⟩ := h.done j hj
    exact ⟨d, hatt.calls j d hd hdone, hdone⟩

/-- A removal in the middle of a sweep keeps the slots that are left together. -/
theorem TakesOut.unscanned {b : Nat} (h : TakesOut cfg s s' b) (hinv : Inv cfg s) (hact : s.side.sweepActive = true)
    (hent : s.side.objects[b]? = some ent) :
    ∀ i, i ∈ s'.unscanned ↔ i ∈ s.unscanned ∧ i ≠ ent.val.call := by
  have htake := h.removes.take hinv.sound hact hent
  have hmap : ∀ t : Index α, t.unscanned = (t.side.objects.take t.side.sweepRemaining).map (·.val.call) :=
    fun t => List.map_take.symm
  have honce : (s.side.objects.take s.side.sweepRemaining |>.map (·.val.call)).Nodup :=
    hinv.once.sublist ((List.take_sublist ..).map _)
  intro i
  split at htake
  · -- The object was still to come.
    have hperm := htake.2.map (·.val.call)
    rw [hmap, hmap, ← hperm.mem_iff, List.map_cons, List.mem_cons]
    have hnot := (List.nodup_cons.mp (hperm.nodup_iff.mpr honce)).1
    constructor
    · intro hi
      exact ⟨.inr hi, fun heq => hnot (by rwa [heq] at hi)⟩
    · rintro ⟨rfl | hi, hne⟩
      · exact absurd rfl hne
      · exact hi
  · -- The scan had passed it.
    rw [hmap, hmap, htake.2]
    refine (and_iff_left_of_imp fun hi heq => ?_).symm
    obtain ⟨k, hk⟩ := List.mem_iff_getElem?.mp hi
    rw [List.getElem?_map, List.getElem?_take] at hk
    split at hk
    · have hb : (s.side.objects.map (·.val.call))[b]? = some i := by rw [List.getElem?_map, hent, heq]; rfl
      rw [← List.getElem?_map] at hk
      have := (List.getElem?_inj (List.getElem?_eq_some_iff.mp hk).1 hinv.once).mp (hk.trans hb.symm)
      omega
    · cases hk

/-- A removal takes one object. -/
theorem TakesOut.without {b : Nat} (h : TakesOut cfg s s' b) (hinv : Inv cfg s)
    (hent : s.side.objects[b]? = some ent) :
    (∀ i, i ∈ Index.without s s' ↔ i = ent.val.call) ∧ Index.without s' s = [] := by
  have hperm := (h.removes.perm hinv.sound hent).map (·.val.call)
  have hnot := (List.nodup_cons.mp (hperm.nodup_iff.mpr hinv.once)).1
  refine ⟨fun i => ?_, without_eq_nil fun i hi => hperm.mem_iff.mp (List.mem_cons_of_mem _ hi)⟩
  unfold Index.without
  rw [List.mem_filter]
  constructor
  · rintro ⟨hi, hni⟩
    exact (List.mem_cons.mp (hperm.mem_iff.mpr hi)).resolve_right (of_decide_eq_true hni)
  · rintro rfl
    exact ⟨hperm.mem_iff.mp List.mem_cons_self, decide_eq_true hnot⟩

/-- An object that something else removes is gone, and the scan goes on without it. -/
theorem Scans.takesOut {l : Sweep} {b : Nat} (h : Scans s l) (hinv : Inv cfg s) (hact : s.side.sweepActive = true)
    (hent : s.side.objects[b]? = some ent) (ht : TakesOut cfg s s' b) :
    Scans s' { l with gone := l.gone ++ without s s', joined := l.joined ++ without s' s } := by
  obtain ⟨hlost, hnew⟩ := ht.without hinv hent
  refine ⟨h.once, h.began, by rw [hnew, List.append_nil]; exact h.joined, fun i => ?_, h.killed, by rw [ht.calls]; exact h.done⟩
  rw [ht.unscanned hinv hact hent, h.unscanned, List.mem_append, not_or, hlost]
  tauto

theorem Scans.clear {l : Sweep} (h : Scans s l) (hc : Clears s s') :
    Scans s' { l with gone := l.gone ++ without s s', joined := l.joined ++ without s' s } := by
  have hstamps : s'.stamps = [] := by
    rw [Index.stamps, hc.objects]
    rfl
  have hnew : without s' s = [] := without_eq_nil fun i hi => by rw [hstamps] at hi; cases hi
  refine ⟨h.once, h.began, by rw [hnew, List.append_nil]; exact h.joined, fun i => ?_, h.killed, by rw [hc.calls]; exact h.done⟩
  have hnil : s'.unscanned = [] := by rw [Index.unscanned, hstamps, List.take_nil]
  rw [hnil, List.mem_append, not_or]
  refine iff_of_false List.not_mem_nil fun ⟨hstart, hprobed, hgone, hlost⟩ => hlost ?_
  have hi := List.mem_of_mem_take ((h.unscanned i).mpr ⟨hstart, hprobed, hgone⟩)
  exact List.mem_filter.mpr ⟨hi, by rw [hstamps]; simp⟩

/-- The object of the next slot is one that is left, and the slots below it hold the others. -/
theorem unscanned_pass (hinv : Inv cfg s)
    (hent : s.side.objects[s.side.sweepRemaining - 1]? = some ent) (hpos : 0 < s.side.sweepRemaining) :
    ∀ i, i ∈ s.pass.unscanned ↔ i ∈ s.unscanned ∧ i ≠ ent.val.call := by
  obtain ⟨n, hn⟩ : ∃ n, s.side.sweepRemaining = n + 1 := ⟨s.side.sweepRemaining - 1, by omega⟩
  have hat : s.stamps[n]? = some ent.val.call := by
    rw [Index.stamps, List.getElem?_map, show n = s.side.sweepRemaining - 1 by omega, hent]
    rfl
  have hsplit : s.unscanned = s.stamps.take n ++ [ent.val.call] := by
    rw [Index.unscanned, hn, List.take_add_one, hat]
    rfl
  have hpass : s.pass.unscanned = s.stamps.take n := by
    show s.stamps.take (s.side.sweepRemaining - 1) = _
    rw [hn]
    rfl
  have honce : s.unscanned.Nodup := hinv.once.sublist (List.take_sublist ..)
  rw [hsplit] at honce
  intro i
  rw [hpass, hsplit, List.mem_append, List.mem_singleton]
  constructor
  · intro hi
    exact ⟨.inl hi, fun heq => List.disjoint_of_nodup_append honce hi (List.mem_singleton.mpr heq)⟩
  · rintro ⟨hi | rfl, hne⟩
    · exact hi
    · exact absurd rfl hne

/-- A turn of the sweep probes the object of the next slot, and takes it out if a hard purge covers it. -/
theorem Scans.probe {l : Sweep} {verdict : Verdict} (h : Scans s l) (hinv : Inv cfg s)
    (hact : s.side.sweepActive = true) (hpos : 0 < s.side.sweepRemaining)
    (heff : if verdict = .hard then TakesOut cfg s s' (s.side.sweepRemaining - 1) else s' = s.pass) :
    Scans s' (l.note s (.sweepProbe verdict) s') := by
  have hle := hinv.sound.sweep hact
  have hent := List.getElem?_eq_getElem (show s.side.sweepRemaining - 1 < s.side.objects.length by omega)
  generalize s.side.objects[s.side.sweepRemaining - 1] = ent at hent
  have hat : s.stamps[s.side.sweepRemaining - 1]? = some ent.val.call := by
    rw [Index.stamps, List.getElem?_map, hent]
    rfl
  -- The slot below the mark has an object that the sweep has not seen.
  have hmem : ent.val.call ∈ s.unscanned := by
    refine List.mem_iff_getElem?.mpr ⟨s.side.sweepRemaining - 1, ?_⟩
    rw [Index.unscanned, List.getElem?_take_of_lt (by omega), hat]
  obtain ⟨hstart, hfresh, -⟩ := (h.unscanned _).mp hmem
  have hleft : ∀ i, i ∈ s'.unscanned ↔ i ∈ s.unscanned ∧ i ≠ ent.val.call := by
    split at heff
    · exact heff.unscanned hinv hact hent
    · rw [heff]
      exact unscanned_pass hinv hent hpos
  have hcalls : s'.calls = s.calls := by
    split at heff
    · exact heff.calls
    · rw [heff]
      rfl
  -- Of the objects, at most the probed one goes.
  have hlost : ∀ i, i ∈ without s s' ↔ i = ent.val.call ∧ verdict = .hard := by
    split at heff
    · rename_i hv
      intro i
      rw [(heff.without hinv hent).1, and_iff_left hv]
    · rename_i hv
      rw [heff, show without s s.pass = [] from without_eq_nil fun i hi => hi]
      exact fun i => iff_of_false List.not_mem_nil fun h => hv h.2
  unfold Sweep.note
  dsimp only
  rw [hat]
  show Scans s' { l with probed := l.probed ++ [(ent.val.call, verdict)], killed := l.killed ++ without s s' }
  refine ⟨?_, ?_, h.joined, fun i => ?_, fun i => ?_, by rw [hcalls]; exact h.done⟩
  · rw [List.map_append, List.nodup_append']
    exact ⟨h.once, List.nodup_singleton _, List.disjoint_singleton.mpr hfresh⟩
  · intro x hx
    rcases List.mem_append.mp hx with hx | hx
    · exact h.began x hx
    · rw [List.mem_singleton.mp hx]
      exact hstart
  · rw [hleft, h.unscanned, List.map_append, List.mem_append, not_or, List.map_singleton, List.mem_singleton]
    tauto
  · rw [List.mem_append, List.mem_append, h.killed, hlost, List.mem_singleton, Prod.mk.injEq, eq_comm (a := verdict)]

section Runs
variable [DecidableEq α]

omit [DecidableEq α] in
/-- A sweep begins with everything in front of it. -/
theorem Inv.scans (h : Inv cfg s) :
    Scans { s with side := { s.side with sweepActive := true, sweepRemaining := s.side.objects.length } }
      ⟨s.stamps, [], [], [], []⟩ := by
  refine ⟨List.nodup_nil, List.forall_mem_nil _, List.forall_mem_nil _, fun i => ?_, fun i => ?_, fun i hi => ?_⟩
  · have : s.stamps.take s.side.objects.length = s.stamps := List.take_of_length_le (by rw [Index.stamps, List.length_map])
    show i ∈ s.stamps.take s.side.objects.length ↔ _
    simp [this]
  · exact iff_of_false List.not_mem_nil List.not_mem_nil
  · obtain ⟨e, he, rfl⟩ := List.mem_map.mp hi
    obtain ⟨c, hc, hw⟩ := h.entries e he
    exact ⟨c, hc, hw.point⟩

/-- What every section keeps of a sweep that is under way. -/
theorem Scans.step {l : Sweep} {e : IndexEvent α} (hinv : Inv cfg s) (hopen : s.side.Open)
    (h : s.side.sweepActive = true → Scans s l) (hs : step cfg s e = some s') (hact' : s'.side.sweepActive = true) :
    Scans s' (l.note s e s') := by
  obtain ⟨-, heff⟩ := hinv.step hopen hs
  cases e with
  | attach i ok =>
    obtain ⟨c, hc, ⟨hrest, -⟩ | hatt⟩ := heff
    · exact (h (hrest.sweepActive ▸ hact')).rest hrest
    · have hact : s.side.sweepActive = true := hatt.sweepActive ▸ hact'
      exact (h hact).attach hinv hact hc hatt
  | invalidate oc =>
    rcases heff with ⟨-, rfl⟩ | ⟨a, ent, hent, -, htakes⟩
    · exact (h hact').rest .refl
    · have hact : s.side.sweepActive = true := htakes.removes.thins.sweepActive ▸ hact'
      exact (h hact).takesOut hinv hact hent htakes
  | sweepStart =>
    rw [heff.2]
    exact hinv.scans
  | sweepProbe verdict =>
    obtain ⟨hact, hpos, heff⟩ := heff
    exact (h hact).probe hinv hact hpos heff
  | sweepEnd =>
    rw [show s' = s.endSweep from heff] at hact'
    cases hact'
  | sweepAbort =>
    rw [show s' = s.endSweep from heff] at hact'
    cases hact'
  | killAll => exact (h (Clears.sweepActive heff ▸ hact')).clear heff
  | retire => exact (h (Clears.sweepActive heff ▸ hact')).clear heff
  | detachAll => exact (h (Clears.sweepActive heff ▸ hact')).clear heff
  | begin oc given regSeq allocated => exact (h (Rests.sweepActive heff ▸ hact')).rest heff
  | migrateIntern => exact (h (Rests.sweepActive heff ▸ hact')).rest heff
  | migrateSideBatch overrun => exact (h (Rests.sweepActive heff ▸ hact')).rest heff
  | publishObjectSegment oldCapacity => exact (h (Rests.sweepActive heff ▸ hact')).rest heff
  | lowWater => exact (h (Rests.sweepActive heff ▸ hact')).rest heff
  | publishShrink n => exact (h (Rests.sweepActive heff ▸ hact')).rest heff
  | publishSideDestination n reason => exact (h (Rests.sweepActive heff ▸ hact')).rest heff

/-- The index with the history of its sweeps. -/
def sweepStep (cfg : Config α) : Index α × Sweep → IndexEvent α → Option (Index α × Sweep) :=
  Machine.watched (step cfg) fun s e s' l => l.note s e s'

/-- What a sweep has done, at any time. -/
structure Visits (s : Index α) (l : Sweep) : Prop where
  once : (l.probed.map Prod.fst).Nodup
  began : ∀ x ∈ l.probed, x.1 ∈ l.start
  joined : ∀ i ∈ l.joined, i ∉ l.probed.map Prod.fst
  unscanned : ∀ i, i ∈ s.unscanned ↔ i ∈ l.start ∧ i ∉ l.probed.map Prod.fst ∧ i ∉ l.gone
  killed : ∀ i, i ∈ l.killed ↔ (i, .hard) ∈ l.probed
  through : s.side.sweepRemaining = 0 → ∀ i ∈ l.start, i ∉ l.gone → (l.probed.map Prod.fst).count i = 1

/-- As long as no side table has become full, a sweep probes an object at most once, and only those that were
    there when it began; the slots below `sweep_remaining` hold those that it has still to probe; it removes
    those that a hard purge covers; and when it is through, it has probed every object that nothing else
    has removed exactly once. -/
theorem sweep_visits_once {x : Index α × Sweep}
    (h : Machine.Reach (sweepStep cfg) (fun x => NotFull x.1) (Index.new, .none) x)
    (hact : x.1.side.sweepActive = true) : Visits x.1 x.2 := by
  have hscans : x.1.side.sweepActive = true → Scans x.1 x.2 := by
    refine h.inv (I := fun x => x.1.side.sweepActive = true → Scans x.1 x.2) (fun h => by cases h) ?_
    intro y z e hreach hscans hopen hs hact'
    obtain ⟨t, ht, rfl⟩ := Option.map_eq_some_iff.mp hs
    exact Scans.step (reach_inv hreach.unwatch) hopen hscans ht hact'
  have hscans := hscans hact
  refine ⟨hscans.once, hscans.began, fun i hi hp => ?_, hscans.unscanned, hscans.killed, fun hzero i hi hgone => ?_⟩
  · obtain ⟨y, hy, rfl⟩ := List.mem_map.mp hp
    exact hscans.joined _ hi (hscans.began y hy)
  · by_cases hp : i ∈ x.2.probed.map Prod.fst
    · exact List.count_eq_one_of_mem hscans.once hp
    · have := (hscans.unscanned i).mpr ⟨hi, hp, hgone⟩
      rw [Index.unscanned, hzero] at this
      cases this

end Runs

/-- Two objects, a sweep that removes the first of them, and an attach in between. -/
def shortSweep : List (IndexEvent Nat) :=
  .begin 7 [10] 1 true :: List.replicate 5 (.attach 0 true) ++
    [.begin 8 [20] 2 true, .attach 1 true, .sweepStart, .sweepProbe .soft, .begin 9 [30] 3 true, .attach 2 true,
      .sweepProbe .hard]

theorem sweep_visits_once_short : ∃ x, Machine.run (sweepStep plainConfig) (Index.new, .none) shortSweep = some x ∧
    x.2.probed = [(1, .soft), (0, .hard)] ∧ x.1.stamps = [2, 1] ∧ Visits x.1 x.2 := by
  have hrun : (Machine.run (Machine.guarded (sweepStep plainConfig) fun x => NotFull x.1) (Index.new, .none)
      shortSweep).map (fun x => (x.2.probed, x.1.stamps, x.1.side.sweepActive)) =
      some ([(1, .soft), (0, .hard)], [2, 1], true) := by decide +kernel
  obtain ⟨x, hx, heq⟩ := Option.map_eq_some_iff.mp hrun
  obtain ⟨hp, hst, hact⟩ : x.2.probed = [(1, .soft), (0, .hard)] ∧ x.1.stamps = [2, 1] ∧ x.1.side.sweepActive = true := by
    simpa using heq
  exact ⟨x, Machine.run_of_guarded hx, hp, hst, sweep_visits_once (.of_guarded hx) hact⟩

/-! ### The failing run -/

/-- The folds of the object `i`: two that share a node with nobody for the objects 5 and 41, else one. -/
def tornFolds (i : Nat) : List Nat := if i = 5 ∨ i = 41 then [i, 1000] else [i]

/-- How many sections the attach of the object `i` takes. -/
def tornTurns (i : Nat) : Nat :=
  if i = 0 ∨ i = 5 then 5 else if i = 41 ∨ i = 44 ∨ i = 64 ∨ i = 128 then 3 else 1

/-- Attaches fill both side tables without a migration step in between, and the batch that comes too late
    fails and leaves the object 41 filed in both. -/
def filling : List (IndexEvent Nat) :=
  ((List.range 129).flatMap fun i =>
    .begin i (tornFolds i) 1 true :: List.replicate (tornTurns i) (.attach i true)) ++ [.migrateSideBatch false]

/-- Invalidations of the later objects, and a sweep with another one after its first turns. -/
def torn : List (IndexEvent Nat) :=
  filling ++ (List.range 85).map (fun i => .invalidate (128 - i)) ++
    [.sweepStart, .sweepProbe .none, .sweepProbe .none, .invalidate 5] ++ List.replicate 42 (.sweepProbe .none)

/-- The object 41 has two slots, both of which the sweep has probed, and both entries point to one node, whose
    only reference is that of their attach. -/
theorem torn_run : ∃ x, Machine.run (sweepStep plainConfig) (Index.new, .none) torn = some x ∧
    x.1.side.sweepActive = true ∧ (x.2.probed.map Prod.fst).count 41 = 2 ∧ 1 ∈ x.1.registry.linked ∧
    (x.1.registry.setAt 1).refs = 1 ∧ (x.1.side.objects.countP fun e => e.val.membership = .set 1) = 2 := by
  have hrun : (Machine.run (sweepStep plainConfig) (Index.new, .none) torn).map (fun x =>
      (x.1.side.sweepActive, (x.2.probed.map Prod.fst).count 41, decide (1 ∈ x.1.registry.linked),
        (x.1.registry.setAt 1).refs, x.1.side.objects.countP fun e => e.val.membership = .set 1)) =
      some (true, 2, true, 1, 2) := by decide +kernel
  obtain ⟨x, hx, heq⟩ := Option.map_eq_some_iff.mp hrun
  exact ⟨x, hx, by simpa using heq⟩

/-- The sweep of the failing run meets the object 41 in two slots, and probes it in both. -/
theorem sweep_visits_torn : ¬∀ (cfg : Config Nat) (x : Index Nat × Sweep),
    Machine.Reach (sweepStep cfg) Machine.always (Index.new, .none) x → x.1.side.sweepActive = true → Visits x.1 x.2 := by
  intro h
  obtain ⟨x, hx, hact, hcount, -⟩ := torn_run
  have := List.nodup_iff_count_le_one.mp (h plainConfig x (.of_run hx) hact).once 41
  omega

end Cachetag.Index
