import Cachetag.Lib.Machine
import Cachetag.Purgemap.Reclaim

/-! # The life of a purge map

`src/vmod_cachetag_purgemap.c` changes a map under `purge_mtx`, a call in several moves: it prepares a
table, upserts the folds of the purge one by one, prunes, writes a checkpoint, and rolls the prune back
where the checkpoint fails. Here every move is a step of its own, so that what holds of every reached
state holds between them as well. -/

namespace Cachetag.Purgemap
open LinearProbe

/-- What the call that holds the map has still to do. -/
inductive Remaining where
  | idle
  /-- the upserts of the folds that are left, of a purge or a replayed record -/
  | upserts (seq : Nat) (mode : PurgeMode) (left : List Fold)
  /-- the checkpoint behind a prune of the given map -/
  | pruned (before : Map)
  /-- the entries that are left of a checkpoint of the given sequence -/
  | restoring (seq left : Nat)

structure Life where
  map : Map
  turn : Remaining

def Life.init : Life := ⟨Map.init, .idle⟩

/-- The moves. -/
inductive Move where
  | purge (digest : Digest) (mode : PurgeMode) (env : Env)
  | purgeBatch (digests : List Digest) (mode : PurgeMode) (env : Env)
  | replay (digest : Digest) (mode : PurgeMode) (seq : Nat) (env : Env)
  | replayBatch (digests : List Digest) (mode : PurgeMode) (seq : Nat) (env : Env)
  | upsert
  | prune (env : Env)
  | settle (env : Env)
  | keep
  | certify
  | rebuild (env : Env)
  | reclaim (cutoff : Nat) (env : Env)
  | restart
  | restoreBegin (checkpoint : Checkpoint) (env : Env)
  | restoreEntry (entry : Entry)
  | restoreEnd

/-- A fallible part of a move: a loop without end stays one, and any other fault leaves the given state. -/
def orElse {α : Type} (r : Except Fault α) (s : Life) (k : α → Life) : Except Fault Life :=
  match r with
  | .ok a => .ok (k a)
  | .error .loops => .error .loops
  | .error _ => .ok s

/-- One move. `none`: it is not its turn. `.loops`: it never ends. No decoder takes the last sequence. -/
def Life.move (cfg : Config) (s : Life) : Move → Option (Except Fault Life)
  | .purge d mode env =>
    match s.turn with
    | .idle => some <| orElse (prepareUpsert env s.map) s fun pm =>
        if pm.seq = u64Max ∨ (cfg.persist && env.logFault.isSome) then ⟨pm, .idle⟩
        else ⟨{ pm with seq := pm.seq + 1 }, .upserts (pm.seq + 1) mode [foldDigest d]⟩
    | _ => none
  | .purgeBatch ds mode env =>
    match s.turn with
    | .idle =>
      if !env.foldsAlloc ∨ s.map.seq = u64Max then some (.ok s)
      else some <| orElse (prepareBatch env s.map ds.length) s fun pm =>
        if cfg.persist && env.logFault.isSome then ⟨pm, .idle⟩
        else ⟨{ pm with seq := s.map.seq + 1 }, .upserts (s.map.seq + 1) mode (ds.map foldDigest)⟩
    | _ => none
  | .replay d mode seq env =>
    match s.turn with
    | .idle =>
      if seq ≤ s.map.seq ∨ u64Max ≤ seq then some (.ok s)
      else
        match prepareUpsert env s.map with
        | .error .loops => some (.error .loops)
        | .error _ => some (.ok s)
        | .ok pm => some <| (applyUpsert pm (foldDigest d).val seq mode).map fun pm =>
            ⟨{ pm with seq := seq }, .upserts seq mode []⟩
    | _ => none
  | .replayBatch ds mode seq env =>
    match s.turn with
    | .idle =>
      if seq ≤ s.map.seq ∨ u64Max ≤ seq then some (.ok s)
      else some <| orElse (prepareBatch env s.map ds.length) s fun pm =>
        ⟨{ pm with seq := seq }, .upserts seq mode (ds.map foldDigest)⟩
    | _ => none
  | .upsert =>
    match s.turn with
    | .upserts seq mode (f :: left) => some <| (applyUpsert s.map f.val seq mode).map fun pm => ⟨pm, .upserts seq mode left⟩
    | _ => none
  | .prune env =>
    match s.turn with
    | .idle | .upserts _ _ [] =>
      some <| orElse (Purgemap.prune cfg env s.map) ⟨s.map, .idle⟩ fun (pm, pruned) =>
        if pruned ≠ 0 then ⟨pm, .pruned s.map⟩ else ⟨pm, .idle⟩
    | _ => none
  | .settle env =>
    match s.turn with
    | .pruned before =>
      match checkpoint cfg env s.map true with
      | .ok _ => some (.ok ⟨s.map, .idle⟩)
      | .error _ => some (.ok ⟨pruneRollback s.map before.table before.nentry before.ntombstone before.hardFloor
          before.softFloor, .idle⟩)
    | _ => none
  | .keep =>
    match s.turn with
    | .pruned _ => some (.ok ⟨s.map, .idle⟩)
    | _ => none
  | .certify =>
    match s.turn with
    | .idle => some (.ok ⟨replayComplete s.map, .idle⟩)
    | _ => none
  | .rebuild env =>
    match s.turn, s.map.table with
    | .idle, some tbl => some <| orElse (Purgemap.rebuild env s.map tbl.nslot false) s fun pm => ⟨pm, .idle⟩
    | _, _ => none
  | .reclaim cutoff env =>
    match s.turn with
    | .idle => some <| orElse (Purgemap.reclaim env s.map cutoff) s fun pm => ⟨pm, .idle⟩
    | _ => none
  | .restart => some (.ok Life.init)
  | .restoreBegin c env =>
    match s.turn with
    | .idle =>
      if u64Max < c.purgeSequence then none
      else some <| orElse (checkpointBegin env s.map c) s fun pm => ⟨pm, .restoring c.purgeSequence c.entries⟩
    | _ => none
  | .restoreEntry e =>
    match s.turn with
    | .restoring seq (left + 1) =>
      if Checkpoint.entryOk seq e then
        some <| orElse (checkpointEntry s.map e) s fun pm => ⟨pm, .restoring seq left⟩
      else some (.ok s)
    | _ => none
  | .restoreEnd =>
    match s.turn with
    | .restoring _ _ => some (.ok ⟨s.map, .idle⟩)
    | _ => none

/-- The moves that come to an end. -/
def Life.step (cfg : Config) (s : Life) (m : Move) : Option Life := (s.move cfg m).bind Except.toOption

/-! ### The invariant -/

/-- The table of a map is one that `calloc` can give. -/
def Map.Fits (pm : Map) : Prop := ∀ t, pm.table = some t → 16 + t.nslot * 24 ≤ sizeMax

section Fits
variable {env : Env} {cfg : Config} {pm pm' : Map} {t t' : Table} {es : List Entry} {e : Entry} {c : Checkpoint}
  {minslot n need cutoff k : Nat} {grow alloc : Bool}

theorem tableNew_fits (h : tableNew alloc n = some t) : 16 + t.nslot * 24 ≤ sizeMax := by
  unfold tableNew at h
  split at h
  · rename_i hfit
    obtain rfl := Option.some.inj h
    rw [Table.nslot_new]
    exact hfit.2
  · cases h

theorem insertExisting_nslot (h : t.insertExisting e = some t') : t'.nslot = t.nslot := by
  obtain ⟨p, -, rfl⟩ := Option.map_eq_some_iff.mp h
  exact Table.nslot_set

theorem insertAll_nslot (h : insertAll es t = .ok t') : t'.nslot = t.nslot := by
  induction es generalizing t with
  | nil =>
    cases h
    rfl
  | cons e es ih =>
    rw [insertAll] at h
    split at h
    · cases h
    · rename_i t₁ hins
      exact (ih h).trans (insertExisting_nslot hins)

/-- The copies of a map go into a new table. -/
theorem fits_of_copy (hnew : tableNew alloc n = some t) (h : insertAll es t = .ok t') (hm : pm.table = some t') :
    pm.Fits := by
  intro u hu
  rw [hm, Option.some.injEq] at hu
  rw [← hu, insertAll_nslot h]
  exact tableNew_fits hnew

theorem rebuild_fits (h : rebuild env pm minslot grow = .ok pm') : pm'.Fits := by
  unfold rebuild at h
  split at h
  · cases h
  rename_i fresh hnew
  split at h
  · cases h
  rename_i tbl hins
  cases h
  exact fits_of_copy hnew hins rfl

theorem prepareUpsert_fits (hf : pm.Fits) (h : prepareUpsert env pm = .ok pm') : pm'.Fits := by
  unfold prepareUpsert at h
  split at h
  · exact rebuild_fits h
  split at h
  · exact rebuild_fits h
  split at h
  · exact rebuild_fits h
  · cases h
    exact hf

theorem prepareBatch_fits (hf : pm.Fits) (h : prepareBatch env pm k = .ok pm') : pm'.Fits := by
  unfold prepareBatch at h
  split at h
  · cases h
  split at h
  · cases h
  dsimp only at h
  split at h
  · cases h
    exact hf
  · exact rebuild_fits h

/-- A table of the same size fits as well. -/
theorem Map.Fits.of_nslot (hf : pm.Fits) (h : pm'.table.map Table.nslot = pm.table.map Table.nslot) : pm'.Fits := by
  intro t ht
  rw [ht, Option.map_some] at h
  obtain ⟨u, hu, hn⟩ := Option.map_eq_some_iff.mp h.symm
  rw [← hn]
  exact hf u hu

theorem pruneAt_fits (h : pruneAt env pm t need cutoff = .ok (pm', k)) : pm'.Fits := by
  unfold pruneAt at h
  dsimp only at h
  split at h
  · cases h
  split at h
  · cases h
  rename_i fresh hnew
  split at h
  · cases h
  rename_i replacement hins
  split at h
  · cases h
  · cases h
    exact fits_of_copy hnew hins rfl

theorem prune_fits (hf : pm.Fits) (h : prune cfg env pm = .ok (pm', k)) : pm'.Fits := by
  unfold prune at h
  split at h
  · cases h
    exact hf
  split at h
  · cases h
    exact hf
  dsimp only at h
  split_ifs at h
  · cases h
    exact hf
  split at h
  · cases h
  · exact pruneAt_fits h

theorem reclaim_fits (h : reclaim env pm cutoff = .ok pm') : pm'.Fits := by
  unfold reclaim at h
  dsimp only at h
  split_ifs at h
  · cases h
    nofun
  split at h
  · cases h
  rename_i fresh hnew
  split at h
  · cases h
  rename_i tbl hins
  cases h
  exact fits_of_copy hnew hins rfl

theorem checkpointBegin_fits (h : checkpointBegin env pm c = .ok pm') : pm'.Fits := by
  unfold checkpointBegin at h
  split at h
  · cases h
  split at h
  · cases h
  split at h
  · cases h
  rename_i nslot _
  dsimp only at h
  generalize htbl : (if c.entries ≠ 0 then tableNew env.tableAlloc nslot else none) = tbl at h
  split at h
  · cases h
  cases h
  rintro t rfl
  split at htbl
  · exact tableNew_fits htbl
  · cases htbl

theorem checkpointEntry_fits (hf : pm.Fits) (h : checkpointEntry pm e = .ok pm') : pm'.Fits := by
  unfold checkpointEntry at h
  split at h
  · cases h
  rename_i tbl htbl
  split_ifs at h
  split at h
  · cases h
  · cases h
  split at h
  · cases h
  rename_i tbl' hins
  cases h
  refine hf.of_nslot ?_
  rw [htbl, Option.map_some, Option.map_some, insertExisting_nslot hins]

end Fits

/-- What holds of a map whose call has still something to do. -/
def Remaining.Ready (pm : Map) : Remaining → Prop
  | .idle => True
  | .upserts seq _ left => pm.seq = seq ∧ 0 < seq ∧ (left ≠ [] → pm.Room left.length)
  | .pruned before => before.WF ∧ before.Below before.seq ∧ before.Fits ∧ ∃ cutoff, PrunesTo before pm cutoff
  | .restoring seq left => pm.seq = seq ∧ (left ≠ 0 → pm.Room left)

structure Life.Inv (s : Life) : Prop where
  wf : s.map.WF
  below : s.map.Below s.map.seq
  fits : s.map.Fits
  last : s.map.seq ≤ u64Max
  ready : s.turn.Ready s.map

/-- What a move may leave: a state in order, and never a loop without end. -/
def Fine (r : Except Fault Life) : Prop := r ≠ .error .loops ∧ ∀ t, r = .ok t → t.Inv

section Moves
variable {cfg : Config} {env : Env} {s : Life} {pm pm' mid : Map} {f : Fold} {d : Digest} {ds : List Digest}
  {mode : PurgeMode} {m : Move} {r : Except Fault Life} {left : List Fold} {seq n : Nat} {e : Entry}

theorem Life.Inv.fine (h : s.Inv) : Fine (.ok s) := by
  refine ⟨nofun, ?_⟩
  rintro t ⟨⟩
  exact h

theorem Fine.of_ok {α : Type} {x : Except Fault α} {k : α → Life} {a : α} (hx : x = .ok a) (hk : (k a).Inv) :
    Fine (orElse x s k) := by
  rw [hx]
  exact hk.fine

theorem Fine.of_error {α : Type} {x : Except Fault α} {k : α → Life} {g : Fault} (hs : s.Inv) (hx : x = .error g)
    (hg : g ≠ .loops) : Fine (orElse x s k) := by
  rw [hx]
  cases g with
  | loops => exact absurd rfl hg
  | _ => exact hs.fine

/-- A map that stands for the same entries, between two calls. -/
theorem Life.Inv.same (h : s.Inv) (hwf : pm.WF) (hs : s.map.Same pm) (hf : pm.Fits) : Life.Inv ⟨pm, .idle⟩ :=
  ⟨hwf, hs.seq ▸ h.below.same hs, hf, hs.seq ▸ h.last, trivial⟩

/-- A prepared map takes the sequence of its purge. -/
theorem Life.Inv.takes (h : s.Inv) (hwf : pm.WF) (hs : s.map.Same pm) (hf : pm.Fits) (hseq : s.map.seq < n)
    (hlast : n ≤ u64Max) (hroom : left ≠ [] → pm.Room left.length) : Life.Inv ⟨{ pm with seq := n }, .upserts n mode left⟩ where
  wf := hwf.with_seq
  below := by
    obtain ⟨hlive, hhard, hsoft⟩ := (h.below.same hs).mono hseq.le
    exact ⟨hlive, hhard, hsoft⟩
  fits := hf
  last := hlast
  ready := ⟨rfl, Nat.zero_lt_of_lt hseq, hroom⟩

theorem Life.Inv.purge (h : s.Inv) (hm : s.move cfg (.purge d mode env) = some r) : Fine r := by
  unfold Life.move at hm
  dsimp only at hm
  split at hm
  · cases hm
    rcases prepareUpsert_spec env h.wf with ⟨mid, hmid, hwf, hs, hroom⟩ | herr
    · refine Fine.of_ok hmid ?_
      have hf := prepareUpsert_fits h.fits hmid
      have hlast := h.last
      split
      · exact h.same hwf hs hf
      · rename_i hmax
        exact h.takes hwf hs hf (by rw [hs.seq]; omega) (by rw [hs.seq] at hmax ⊢; omega) fun _ => hroom
    · exact Fine.of_error h herr (by decide)
  · cases hm

theorem Life.Inv.purgeBatch (h : s.Inv) (hm : s.move cfg (.purgeBatch ds mode env) = some r) : Fine r := by
  unfold Life.move at hm
  dsimp only at hm
  split at hm
  · split at hm
    · cases hm
      exact h.fine
    cases hm
    rename_i hmax
    rw [not_or] at hmax
    have hlast := h.last
    rcases prepareBatch_spec env ds.length h.wf with ⟨mid, hmid, hwf, hs, hroom⟩ | ⟨f, herr, hf⟩
    · refine Fine.of_ok hmid ?_
      have hf := prepareBatch_fits h.fits hmid
      split
      · exact h.same hwf hs hf
      · refine h.takes hwf hs hf (by omega) (by omega) fun hne => ?_
        rw [List.length_map]
        exact hroom (List.length_pos_of_ne_nil fun h0 => hne (by rw [h0]; rfl))
    · exact Fine.of_error h herr hf
  · cases hm

theorem Map.Below.upserted {b : Nat} (h : pm.Below b) (hn : n ≤ b) (hpos : 0 < n)
    (hperm : pm'.live.Perm (upserted pm.live f.val n mode)) (hhard : pm'.hardFloor = pm.hardFloor)
    (hsoft : pm'.softFloor = pm.softFloor) : pm'.Below b :=
  ⟨fun e he => upserted_bound h.live hn hpos e (hperm.mem_iff.mp he), hhard ▸ h.hard, hsoft ▸ h.soft⟩

theorem Life.Inv.replay (h : s.Inv) (hm : s.move cfg (.replay d mode n env) = some r) : Fine r := by
  unfold Life.move at hm
  dsimp only at hm
  split at hm
  · split at hm
    · cases hm
      exact h.fine
    rename_i hlt
    rw [not_or, Nat.not_le, Nat.not_le] at hlt
    rcases prepareUpsert_spec env h.wf with ⟨mid, hmid, hwf, hs, hroom⟩ | herr
    · obtain ⟨out, hup, hwf', hperm, -, -, hhard, hsoft, hnslot⟩ := applyUpsert_spec (foldDigest d) n mode hwf hroom
      rw [hmid] at hm
      dsimp only at hm
      rw [hup] at hm
      cases hm
      have hmid' := (h.below.same hs).mono hlt.1.le
      obtain ⟨hlive, hh, hs'⟩ := hmid'.upserted (Nat.le_refl n) (by omega) hperm hhard hsoft
      exact Life.Inv.fine ⟨hwf'.with_seq, ⟨hlive, hh, hs'⟩, (prepareUpsert_fits h.fits hmid).of_nslot hnslot,
        hlt.2.le, rfl, by omega, fun hne => absurd rfl hne⟩
    · rw [herr] at hm
      cases hm
      exact h.fine
  · cases hm

theorem Life.Inv.replayBatch (h : s.Inv) (hm : s.move cfg (.replayBatch ds mode n env) = some r) : Fine r := by
  unfold Life.move at hm
  dsimp only at hm
  split at hm
  · split at hm
    · cases hm
      exact h.fine
    cases hm
    rename_i hlt
    rw [not_or, Nat.not_le, Nat.not_le] at hlt
    rcases prepareBatch_spec env ds.length h.wf with ⟨mid, hmid, hwf, hs, hroom⟩ | ⟨f, herr, hf⟩
    · refine Fine.of_ok hmid ?_
      refine h.takes hwf hs (prepareBatch_fits h.fits hmid) hlt.1 hlt.2.le fun hne => ?_
      rw [List.length_map]
      exact hroom (List.length_pos_of_ne_nil fun h0 => hne (by rw [h0]; rfl))
    · exact Fine.of_error h herr hf
  · cases hm

/-- While folds are left, an upsert finds a slot. -/
theorem Life.Inv.finds (h : s.Inv) (ht : s.turn = .upserts seq mode (f :: left)) :
    ∃ pm', applyUpsert s.map f.val seq mode = .ok pm' ∧ Life.Inv ⟨pm', .upserts seq mode left⟩ := by
  have hready := h.ready
  rw [ht] at hready
  obtain ⟨rfl, hpos, hroom⟩ := hready
  have hroom : s.map.Room (left.length + 1) := hroom (by simp)
  obtain ⟨pm', hup, hwf, hperm, hseq, -, hhard, hsoft, hnslot⟩ := applyUpsert_spec f s.map.seq mode h.wf hroom.one
  refine ⟨pm', hup, hwf, ?_, h.fits.of_nslot hnslot, hseq ▸ h.last, hseq, hpos, fun _ => hroom.upserted h.wf hwf hperm hnslot⟩
  rw [hseq]
  exact h.below.upserted (Nat.le_refl _) hpos hperm hhard hsoft

theorem Life.Inv.upsert (h : s.Inv) (hm : s.move cfg .upsert = some r) : Fine r := by
  unfold Life.move at hm
  dsimp only at hm
  split at hm
  · rename_i seq mode f left ht
    obtain ⟨pm', hup, hinv⟩ := h.finds ht
    rw [hup] at hm
    cases hm
    exact hinv.fine
  · cases hm

/-- A call whose upserts are done can end. -/
theorem Life.Inv.ended (h : s.Inv) : Life.Inv ⟨s.map, .idle⟩ := ⟨h.wf, h.below, h.fits, h.last, trivial⟩

theorem Life.Inv.prune_fine (h : s.Inv) :
    Fine (Purgemap.orElse (Purgemap.prune cfg env s.map) ⟨s.map, .idle⟩ fun (pm, pruned) =>
      if pruned ≠ 0 then ⟨pm, .pruned s.map⟩ else ⟨pm, .idle⟩) := by
  rcases prune_spec cfg env h.wf with ⟨-, hok⟩ | ⟨pm', k, cutoff, hok, hk, -, -, hwf, hto⟩ | ⟨f, herr, hf, -⟩
  · refine Fine.of_ok hok ?_
    dsimp only
    rw [if_neg (by decide)]
    exact h.ended
  · refine Fine.of_ok hok ?_
    dsimp only
    rw [if_pos hk.ne']
    exact ⟨hwf, hto.seq ▸ hto.below h.below, prune_fits h.fits hok, hto.seq ▸ h.last, h.wf, h.below, h.fits, cutoff, hto⟩
  · exact Fine.of_error h.ended herr hf

theorem Life.Inv.prune (h : s.Inv) (hm : s.move cfg (.prune env) = some r) : Fine r := by
  unfold Life.move at hm
  dsimp only at hm
  split at hm
  · cases hm
    exact h.prune_fine
  · cases hm
    exact h.prune_fine
  · cases hm

theorem Life.Inv.settle (h : s.Inv) (hm : s.move cfg (.settle env) = some r) : Fine r := by
  unfold Life.move at hm
  dsimp only at hm
  split at hm
  · rename_i before ht
    have hready := h.ready
    rw [ht] at hready
    obtain ⟨hwf, hbelow, hfits, cutoff, hto⟩ := hready
    rw [hto.rollback] at hm
    split at hm
    · cases hm
      exact h.ended.fine
    · cases hm
      exact Life.Inv.fine ⟨hwf, hbelow, hfits, hto.seq ▸ h.last, trivial⟩
  · cases hm

theorem Life.Inv.rebuild (h : s.Inv) (hm : s.move cfg (.rebuild env) = some r) : Fine r := by
  unfold Life.move at hm
  dsimp only at hm
  split at hm
  · rename_i tbl _ _
    cases hm
    rcases rebuild_spec env tbl.nslot false h.wf with ⟨pm', t, hok, hwf, hs, -⟩ | ⟨herr, -⟩
    · refine Fine.of_ok hok ?_
      exact h.same hwf hs (rebuild_fits hok)
    · exact Fine.of_error h herr (by decide)
  · cases hm

theorem Life.Inv.reclaim {cutoff : Nat} (h : s.Inv) (hm : s.move cfg (.reclaim cutoff env) = some r) : Fine r := by
  unfold Life.move at hm
  dsimp only at hm
  split at hm
  · cases hm
    rcases reclaim_spec env cutoff h.wf with ⟨pm', hok, hwf, hto⟩ | herr
    · refine Fine.of_ok hok ?_
      exact ⟨hwf, hto.seq ▸ h.below.reclaimsTo hto, reclaim_fits hok, hto.seq ▸ h.last, trivial⟩
    · exact Fine.of_error h herr (by decide)
  · cases hm

/-- A map that a checkpoint can be read into is the fresh one, but for the memo token. -/
theorem Life.Inv.empty (h : s.Inv) (hm : ¬(s.map.table.isSome ∨ s.map.nentry ≠ 0 ∨ s.map.seq ≠ 0)) :
    s.map = { Map.init with memoSeq := s.map.memoSeq } := by
  rw [not_or, not_or, not_not, not_not, Bool.not_eq_true, Option.isSome_eq_false_iff, Option.isNone_iff_eq_none] at hm
  obtain ⟨htable, hn, hseq⟩ := hm
  have hhard := h.below.hard
  have hsoft := h.below.soft
  have htomb := h.wf.tomb
  rw [hseq, Nat.le_zero] at hhard hsoft
  revert htable hn hseq hhard hsoft htomb
  cases s.map
  rintro rfl rfl rfl rfl rfl rfl
  rfl

theorem checkpointBegin_memo {c : Checkpoint} : checkpointBegin env { Map.init with memoSeq := n } c =
    (checkpointBegin env Map.init c).map fun pm => { pm with memoSeq := n } := by
  unfold checkpointBegin
  split
  · rfl
  rw [if_neg (by simp [Map.init]), if_neg (by simp [Map.init])]
  cases roomForChecked c.entries c.entries initialSlots with
  | none => rfl
  | some nslot =>
    dsimp only
    generalize (if c.entries ≠ 0 then tableNew env.tableAlloc nslot else none) = tbl
    split <;> rfl

theorem Life.Inv.restoreBegin {c : Checkpoint} (h : s.Inv) (hm : s.move cfg (.restoreBegin c env) = some r) :
    Fine r := by
  unfold Life.move at hm
  dsimp only at hm
  split at hm
  · split at hm
    · cases hm
    rename_i hrange
    cases hm
    by_cases hempty : s.map.table.isSome ∨ s.map.nentry ≠ 0 ∨ s.map.seq ≠ 0
    · have hfail : checkpointBegin env s.map c = .error .einval := by
        unfold checkpointBegin
        rw [if_pos hempty, ite_self]
      exact Fine.of_error h hfail (by decide)
    have hmemo : checkpointBegin env { Map.init with memoSeq := s.map.memoSeq } c =
        (checkpointBegin env Map.init c).map fun pm => { pm with memoSeq := s.map.memoSeq } := checkpointBegin_memo
    rw [← h.empty hempty] at hmemo
    rcases checkpointBegin_spec env c with ⟨tbl, hok, hwf, hnil, hroom⟩ | ⟨f, herr, hf⟩
    · rw [hok] at hmemo
      refine Fine.of_ok hmemo ?_
      have hfloors : ¬(c.purgeSequence = u64Max ∨ c.hardFloor > c.purgeSequence ∨ c.softFloor > c.purgeSequence ∨
          c.entries > sizeMax) := by
        intro hbad
        rw [checkpointBegin, if_pos hbad] at hok
        cases hok
      have hlive : ∀ e ∈ (begun c tbl).live,
          e.hardSeq ≤ c.purgeSequence ∧ e.softSeq ≤ c.purgeSequence ∧ 0 < e.newest := by
        rw [hnil]
        nofun
      exact ⟨hwf.with_memo, ⟨hlive, by simp only [begun]; omega, by simp only [begun]; omega⟩,
        checkpointBegin_fits hmemo, Nat.le_of_not_lt hrange, rfl, hroom⟩
    · rw [herr] at hmemo
      exact Fine.of_error h hmemo hf
  · cases hm

/-- An entry whose fold is in the map is refused. -/
theorem checkpointEntry_dup (h : pm.WF) (hl : e.Live) (hdup : ∃ x ∈ pm.live, x.fold = e.fold) :
    checkpointEntry pm e = .error .einval := by
  obtain ⟨x, hx, hfold⟩ := hdup
  cases ht : pm.table with
  | none => simp [Map.live, ht] at hx
  | some t =>
    obtain ⟨hwf, hload⟩ := h.table t ht
    rw [Map.live_some ht] at hx
    have hwalk : walk t.slot t.nslot (checkpointVisit e.fold) t.nslot (t.home e.fold) () = some none := by
      obtain ⟨d, hd, hgo, hend⟩ := hwf.search (h.room ht) hl.1
      have hfound : (t.slot (cyc t.nslot (t.home e.fold) d)).fold = e.fold :=
        hend.resolve_right fun hno => hwf.absent_of_slots hno.2 x hx hfold
      exact walk_eq hwf.pow (hwf.home_lt _) hd (fun _ => ())
        (fun i hi => by rw [checkpointVisit, if_neg (hgo i hi).2, if_neg (hgo i hi).1])
        (by rw [checkpointVisit, if_pos hfound])
    have hroom := hwf.room_of_load hload
    simp only [checkpointEntry, ht, hwalk]
    rw [if_neg (by omega)]

theorem Life.Inv.restoreEntry (h : s.Inv) (hm : s.move cfg (.restoreEntry e) = some r) : Fine r := by
  unfold Life.move at hm
  dsimp only at hm
  split at hm
  · rename_i seq left ht
    have hready := h.ready
    rw [ht] at hready
    obtain ⟨hseq, hroom⟩ := hready
    have hroom : s.map.Room (left + 1) := hroom (by omega)
    split at hm
    · rename_i hentry
      simp only [Checkpoint.entryOk, Bool.and_eq_true, decide_eq_true_eq, Bool.not_eq_true', Bool.and_eq_false_iff,
        beq_eq_false_iff_ne] at hentry
      obtain ⟨⟨⟨hlive, hne⟩, hhard⟩, hsoft⟩ := hentry
      cases hm
      by_cases hdup : ∃ x ∈ s.map.live, x.fold = e.fold
      · have herr := checkpointEntry_dup h.wf hlive hdup
        exact Fine.of_error h herr (by decide)
      push Not at hdup
      obtain ⟨t, hok, hwf, hperm, hnslot⟩ := checkpointEntry_spec h.wf hroom.one hlive hdup
      refine Fine.of_ok hok ?_
      refine ⟨hwf, ⟨?_, h.below.hard, h.below.soft⟩, checkpointEntry_fits h.fits hok, h.last, hseq, fun _ => ?_⟩
      · intro x hx
        rcases List.mem_cons.mp (hperm.mem_iff.mp hx) with rfl | hx
        · refine ⟨hseq ▸ hhard, hseq ▸ hsoft, ?_⟩
          unfold Entry.newest
          omega
        · exact h.below.live x hx
      · obtain ⟨u, hu, hload⟩ := hroom
        rw [hu, Option.map_some, Option.some.injEq] at hnslot
        exact ⟨t, rfl, by dsimp only; rw [← hnslot]; omega⟩
    · cases hm
      exact h.fine
  · cases hm

theorem Life.Inv.init : Life.init.Inv :=
  ⟨Map.WF.init, Sound.init.below, nofun, Nat.zero_le _, trivial⟩

/-- Every move ends, in a state in order. -/
theorem Life.Inv.move (h : s.Inv) (hm : s.move cfg m = some r) : Fine r := by
  cases m with
  | purge => exact h.purge hm
  | purgeBatch => exact h.purgeBatch hm
  | replay => exact h.replay hm
  | replayBatch => exact h.replayBatch hm
  | upsert => exact h.upsert hm
  | prune => exact h.prune hm
  | settle => exact h.settle hm
  | rebuild => exact h.rebuild hm
  | reclaim => exact h.reclaim hm
  | restoreBegin => exact h.restoreBegin hm
  | restoreEntry => exact h.restoreEntry hm
  | restart =>
    cases hm
    exact Life.Inv.init.fine
  | keep | restoreEnd =>
    unfold Life.move at hm
    dsimp only at hm
    split at hm
    · cases hm
      exact h.ended.fine
    · cases hm
  | certify =>
    unfold Life.move at hm
    dsimp only at hm
    split at hm
    · cases hm
      refine Life.Inv.fine ⟨h.wf.with_memo, ?_, h.fits, h.last, trivial⟩
      exact ⟨h.below.live, h.below.hard, h.below.soft⟩
    · cases hm

theorem Life.reach_inv (h : Machine.Reach (Life.step cfg) Machine.always Life.init s) : s.Inv := by
  refine h.inv Life.Inv.init ?_
  intro s t m _ hi _ hst
  obtain ⟨r, hr, ht⟩ := Option.bind_eq_some_iff.mp hst
  cases r with
  | ok u =>
    cases ht
    exact (hi.move hr).2 t rfl
  | error => cases ht

end Moves

/-- Whatever purges, batches, rebuilds, prunes, rollbacks, reclaims, replays and restores a map has gone through, and
    at whatever point of one it stands: its table is in order, and no entry is without a purge or behind the map's
    sequence. So every probe ends, whatever its fold, no move hangs, and the upserts of a prepared purge all find a slot. -/
theorem table_in_order (cfg : Config) (s : Life) (h : Machine.Reach (Life.step cfg) Machine.always Life.init s) :
    s.map.WF ∧ s.map.Below s.map.seq ∧
      (∀ regSeq fold, ∃ v, probeOne s.map.table regSeq fold = some v) ∧
      (∀ m, s.move cfg m ≠ some (.error .loops)) ∧
      ∀ seq mode f left, s.turn = .upserts seq mode (f :: left) →
        ∃ pm', applyUpsert s.map f.val seq mode = .ok pm' := by
  have hinv := Life.reach_inv h
  refine ⟨hinv.wf, hinv.below, fun _ _ => hinv.wf.probeOne_ends, ?_, ?_⟩
  · intro m hm
    exact (hinv.move hm).1 rfl
  · intro seq mode f left ht
    obtain ⟨pm', hup, -⟩ := hinv.finds ht
    exact ⟨pm', hup⟩

end Cachetag.Purgemap
