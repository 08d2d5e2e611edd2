import Cachetag.Lib.Machine
import Cachetag.Purgemap.Calls

/-! The purge map refines the log of its purges.

The log is what the map is for: the accepted purges, each with its sequence, and nothing ever forgotten.
An object is invalid when the log holds a purge of one of its tags behind its registration. The map keeps
less: one entry per fold, and floors for what was pruned. `Represents` relates the two. -/

namespace Cachetag.Purgemap

/-- A purge that was accepted. -/
structure Purge where
  seq : Nat
  fold : Nat
  mode : PurgeMode
deriving DecidableEq, Repr

/-- The strength of a verdict: nothing, soft, hard. -/
def strength : ProbeResult → Nat
  | .none => 0
  | .soft => 1
  | .hard => 2

/-- What the log says of an object that was registered at `regSeq` with the given folds. -/
def logVerdict (log : List Purge) (regSeq : Nat) (folds : List Nat) : ProbeResult :=
  if ∃ p ∈ log, p.mode = .hard ∧ p.fold ∈ folds ∧ regSeq < p.seq then .hard
  else if ∃ p ∈ log, p.mode = .soft ∧ p.fold ∈ folds ∧ regSeq < p.seq then .soft
  else .none

/-- The sequence of an entry's newest purge in a mode. -/
def Entry.seqOf : PurgeMode → Entry → Nat
  | .hard => Entry.hardSeq
  | .soft => Entry.softSeq

/-- The floor of a mode. -/
def Map.floor (pm : Map) : PurgeMode → Nat
  | .hard => pm.hardFloor
  | .soft => pm.softFloor

/-- Entries and floors hold every purge of a log, and the entries no other. -/
structure Represents (log : List Purge) (l : List Entry) (floor : PurgeMode → Nat) : Prop where
  kept : ∀ p ∈ log, p.seq ≤ floor p.mode ∨ ∃ e ∈ l, e.fold = p.fold ∧ p.seq ≤ e.seqOf p.mode
  logged : ∀ e ∈ l, ∀ m, e.seqOf m ≠ 0 → ⟨e.seqOf m, e.fold, m⟩ ∈ log

section Represents
variable {log : List Purge} {l l' : List Entry} {floor floor' : PurgeMode → Nat} {pm pm' : Map} {e : Entry}
  {fold seq regSeq : Nat} {mode m : PurgeMode} {folds : List Nat}

theorem Entry.seqOf_bump : (e.bump seq mode).seqOf m = if m = mode then max (e.seqOf m) seq else e.seqOf m := by
  cases mode <;> cases m <;> simp only [Entry.bump, Entry.seqOf] <;> split <;> simp <;> omega

theorem Entry.seqOf_fresh : (Entry.fresh fold seq mode).seqOf m = if m = mode then seq else 0 := by
  cases mode <;> cases m <;> rfl

theorem Represents.perm (h : Represents log l floor) (hp : l'.Perm l) : Represents log l' floor where
  kept := fun p hpl => by simpa only [hp.mem_iff] using h.kept p hpl
  logged := fun e he => h.logged e (hp.mem_iff.mp he)

variable (fold seq mode) in
/-- A purge enters the entries as it enters the log. -/
theorem Represents.upserted (h : Represents log l floor) :
    Represents (log ++ [⟨seq, fold, mode⟩]) (upserted l fold seq mode) floor := by
  unfold Purgemap.upserted
  split
  · rename_i hex
    obtain ⟨x, hx, hxf⟩ := hex
    constructor
    · intro p hp
      -- Bumping the entry of the fold lowers no sequence of any entry.
      have moved : ∀ e ∈ l, ∃ e' ∈ l.map (fun e => if e.fold = fold then e.bump seq mode else e),
          e'.fold = e.fold ∧ ∀ m, e.seqOf m ≤ e'.seqOf m := by
        intro e he
        refine ⟨_, List.mem_map_of_mem he, ?_, fun m => ?_⟩
        · split <;> simp
        · split
          · rw [Entry.seqOf_bump]
            split <;> omega
          · exact Nat.le_refl _
      rcases List.mem_append.mp hp with hp | hp
      · rcases h.kept p hp with hfloor | ⟨e, he, hef, hle⟩
        · exact Or.inl hfloor
        · obtain ⟨e', he', hf', hle'⟩ := moved e he
          exact Or.inr ⟨e', he', hf'.trans hef, hle.trans (hle' p.mode)⟩
      · obtain rfl := List.mem_singleton.mp hp
        refine Or.inr ⟨x.bump seq mode, List.mem_map.mpr ⟨x, hx, if_pos hxf⟩, ?_, ?_⟩
        · rw [Entry.bump_fold, hxf]
        · rw [Entry.seqOf_bump, if_pos rfl]
          exact Nat.le_max_right _ _
    · intro e he m hne
      obtain ⟨y, hy, rfl⟩ := List.mem_map.mp he
      split at hne
      · rename_i hyf
        rw [if_pos hyf, Entry.bump_fold]
        rw [Entry.seqOf_bump] at hne ⊢
        split at hne
        · rename_i hm
          subst hm
          rw [if_pos rfl]
          -- The greater of the two sequences is in the log, behind the entry or as the new purge.
          rcases Nat.le_total seq (y.seqOf m) with hle | hle
          · rw [Nat.max_eq_left hle] at hne ⊢
            exact List.mem_append_left _ (h.logged y hy m hne)
          · rw [Nat.max_eq_right hle, hyf]
            exact List.mem_append_right _ List.mem_cons_self
        · rename_i hm
          rw [if_neg hm]
          exact List.mem_append_left _ (h.logged y hy m hne)
      · rename_i hyf
        rw [if_neg hyf]
        exact List.mem_append_left _ (h.logged y hy m hne)
  · constructor
    · intro p hp
      rcases List.mem_append.mp hp with hp | hp
      · rcases h.kept p hp with hfloor | ⟨e, he, hef, hle⟩
        · exact Or.inl hfloor
        · exact Or.inr ⟨e, List.mem_cons_of_mem _ he, hef, hle⟩
      · obtain rfl := List.mem_singleton.mp hp
        refine Or.inr ⟨_, List.mem_cons_self, Entry.fresh_fold, ?_⟩
        rw [Entry.seqOf_fresh, if_pos rfl]
    · intro e he m hne
      rcases List.mem_cons.mp he with rfl | he
      · rw [Entry.seqOf_fresh] at hne ⊢
        rw [Entry.fresh_fold]
        split at hne
        · rename_i hm
          subst hm
          rw [if_pos rfl]
          exact List.mem_append_right _ List.mem_cons_self
        · exact absurd rfl hne
      · exact List.mem_append_left _ (h.logged e he m hne)

theorem Represents.upsertedAll {fs : List Fold} (h : Represents log l floor) :
    Represents (log ++ fs.map fun f => ⟨seq, f.val, mode⟩) (upsertedAll l fs seq mode) floor := by
  induction fs generalizing log l with
  | nil => simpa [Purgemap.upsertedAll] using h
  | cons f fs ih =>
    have hrest := ih (h.upserted f.val seq mode)
    rw [List.append_assoc] at hrest
    exact hrest

/-- Entries that go to the floors take their purges with them. -/
theorem Represents.prunesTo {cutoff : Nat} (h : Represents log pm.live pm.floor) (hto : PrunesTo pm pm' cutoff) :
    Represents log pm'.live pm'.floor where
  kept := by
    have up : ∀ m, pm.floor m ≤ pm'.floor m := by
      intro m
      cases m
      · exact floor_le_raised.trans_eq hto.hard.symm
      · exact floor_le_raised.trans_eq hto.soft.symm
    have into : ∀ e ∈ pm.live, e.newest ≤ cutoff → ∀ m, e.seqOf m ≤ pm'.floor m := by
      intro e he hcut m
      have hmem : e ∈ pm.live.filter fun e => e.newest ≤ cutoff := List.mem_filter.mpr ⟨he, decide_eq_true hcut⟩
      cases m
      · exact (le_raised Entry.hardSeq hmem).trans_eq hto.hard.symm
      · exact (le_raised Entry.softSeq hmem).trans_eq hto.soft.symm
    intro p hp
    rcases h.kept p hp with hfloor | ⟨e, he, hef, hle⟩
    · exact Or.inl (hfloor.trans (up p.mode))
    · by_cases hcut : e.newest ≤ cutoff
      · exact Or.inl (hle.trans (into e he hcut p.mode))
      · exact Or.inr ⟨e, hto.live.mem_iff.mpr (List.mem_filter.mpr ⟨he, decide_eq_true (Nat.lt_of_not_le hcut)⟩),
          hef, hle⟩
  logged := fun e he => h.logged e (List.mem_of_mem_filter (hto.live.mem_iff.mp he))

variable (regSeq folds) in
/-- The map's verdict is never weaker than the log's, and is the log's own behind the floors. -/
theorem Represents.verdict (h : Represents log pm.live pm.floor) :
    strength (logVerdict log regSeq folds) ≤ strength (mapVerdict pm.live pm.hardFloor pm.softFloor regSeq folds) ∧
    (pm.hardFloor ≤ regSeq → pm.softFloor ≤ regSeq →
      mapVerdict pm.live pm.hardFloor pm.softFloor regSeq folds = logVerdict log regSeq folds) := by
  have toMap : ∀ m, (∃ p ∈ log, p.mode = m ∧ p.fold ∈ folds ∧ regSeq < p.seq) →
      regSeq < pm.floor m ∨ ∃ e ∈ pm.live, e.fold ∈ folds ∧ regSeq < e.seqOf m := by
    rintro m ⟨p, hp, rfl, hf, hlt⟩
    rcases h.kept p hp with hfloor | ⟨e, he, hef, hle⟩
    · exact Or.inl (Nat.lt_of_lt_of_le hlt hfloor)
    · exact Or.inr ⟨e, he, hef ▸ hf, Nat.lt_of_lt_of_le hlt hle⟩
  have toLog : ∀ m, (∃ e ∈ pm.live, e.fold ∈ folds ∧ regSeq < e.seqOf m) →
      ∃ p ∈ log, p.mode = m ∧ p.fold ∈ folds ∧ regSeq < p.seq := by
    rintro m ⟨e, he, hf, hlt⟩
    exact ⟨_, h.logged e he m (Nat.ne_zero_of_lt hlt), rfl, hf, hlt⟩
  have hardMap := toMap .hard
  have softMap := toMap .soft
  have hardLog := toLog .hard
  have softLog := toLog .soft
  simp only [Map.floor, Entry.seqOf] at hardMap softMap hardLog softLog
  unfold logVerdict mapVerdict
  constructor
  · split
    · rename_i hlog
      rw [if_pos (hardMap hlog)]
    split
    · rename_i _ hlog
      rw [if_pos (softMap hlog)]
      split <;> decide
    · exact Nat.zero_le _
  · intro hhf hsf
    have hard : (regSeq < pm.hardFloor ∨ ∃ e ∈ pm.live, e.fold ∈ folds ∧ regSeq < e.hardSeq) ↔
        ∃ p ∈ log, p.mode = .hard ∧ p.fold ∈ folds ∧ regSeq < p.seq :=
      ⟨fun hm => hm.elim (fun hlt => absurd hlt (Nat.not_lt.mpr hhf)) hardLog, hardMap⟩
    have soft : (regSeq < pm.softFloor ∨ ∃ e ∈ pm.live, e.fold ∈ folds ∧ regSeq < e.softSeq) ↔
        ∃ p ∈ log, p.mode = .soft ∧ p.fold ∈ folds ∧ regSeq < p.seq :=
      ⟨fun hm => hm.elim (fun hlt => absurd hlt (Nat.not_lt.mpr hsf)) softLog, softMap⟩
    simp only [hard, soft]

end Represents

/-! ### Runs -/

/-- A map, the log of the purges it has accepted, and the last checkpoint, with the log it was taken at. -/
structure History where
  map : Map
  log : List Purge
  saved : Option (Checkpoint × List Purge)
deriving DecidableEq, Repr

def History.init : History := ⟨Map.init, [], none⟩

/-- The calls that change a map. Each comes with the answers of the calls outside it. -/
inductive Event where
  | purge (digest : Digest) (mode : PurgeMode) (env : Env)
  | purgeBatch (digests : List Digest) (mode : PurgeMode) (env : Env)
  | compact (env : Env)
  | checkpoint (force : Bool) (env : Env)
  | restore (env : Env)
  | replay (digest : Digest) (mode : PurgeMode) (seq : Nat) (env : Env)
  | replayBatch (digests : List Digest) (mode : PurgeMode) (seq : Nat) (env : Env)
deriving DecidableEq, Repr

/-- The log once a purge of a given sequence has entered it. -/
def logged (log : List Purge) (seq : Nat) (folds : List Fold) (mode : PurgeMode) : List Purge :=
  log ++ folds.map fun f => ⟨seq, f.val, mode⟩

/-- The state once a purge is answered. -/
def History.answered (s : History) (p : Purged) (folds : List Fold) (mode : PurgeMode) : History :=
  let log := if p.reply = .accepted then logged s.log (s.map.seq + 1) folds mode else s.log
  ⟨p.map, log, (p.written.map fun c => (c, log)).or s.saved⟩

/-- One call. A restart begins again with the last checkpoint, or with an empty map when there is none, and
    goes on with records. -/
def History.step (cfg : Config) (s : History) : Event → Option History
  | .purge d mode env =>
    match purge cfg env s.map d mode with
    | .error _ => none
    | .ok p => some (s.answered p [foldDigest d] mode)
  | .purgeBatch ds mode env =>
    match purgeBatch cfg env s.map ds mode with
    | .error _ => none
    | .ok p => some (s.answered p (ds.map foldDigest) mode)
  | .compact env =>
    let p := compact cfg env s.map
    if p.fault = some .loops then none
    else some ⟨p.map, s.log, (p.written.map fun c => (c, s.log)).or s.saved⟩
  | .checkpoint force env =>
    match checkpoint cfg env s.map force with
    | .error _ => some s
    | .ok w => some { s with saved := (w.map fun c => (c, s.log)).or s.saved }
  | .restore env =>
    match s.saved with
    | none => some ⟨Map.init, [], none⟩
    | some (c, log) =>
      match restore env c with
      | .error _ => none
      | .ok pm => some ⟨pm, log, some (c, log)⟩
  | .replay d mode seq env =>
    match replayOne cfg env s.map d mode seq with
    | .error _ => none
    | .ok pm => some ⟨pm, logged s.log seq [foldDigest d] mode, s.saved⟩
  | .replayBatch ds mode seq env =>
    match replayBatch cfg env s.map ds mode seq with
    | .error _ => none
    | .ok pm => some ⟨pm, logged s.log seq (ds.map foldDigest) mode, s.saved⟩

/-- What a map carries along with its log. -/
structure Sound (log : List Purge) (pm : Map) : Prop where
  below : pm.Below pm.seq
  represents : Represents log pm.live pm.floor

structure History.Inv (s : History) : Prop where
  wf : s.map.WF
  sound : Sound s.log s.map
  saved : ∀ c log, s.saved = some (c, log) → ∃ pm : Map, c = pm.image ∧ pm.WF ∧ Sound log pm

section Inv
variable {cfg : Config} {s t : History} {pm pm' out : Map} {log : List Purge} {folds : List Fold} {mode : PurgeMode}
  {p : Purged} {c : Checkpoint} {n : Nat}

theorem Sound.same (h : Sound log pm) (hs : pm.Same pm') : Sound log pm' where
  below := hs.seq ▸ h.below.same hs
  represents := by
    have hfloor : pm'.floor = pm.floor := by
      funext m
      cases m
      · exact hs.hard
      · exact hs.soft
    rw [hfloor]
    exact h.represents.perm hs.live

theorem Sound.with_memo (h : Sound log pm) : Sound log { pm with memoSeq := n } :=
  h.same ⟨List.Perm.refl _, rfl, rfl, rfl⟩

theorem Sound.of_memo (h : Sound log { pm with memoSeq := n }) : Sound log pm :=
  h.same ⟨List.Perm.refl _, rfl, rfl, rfl⟩

theorem Sound.mayPrune (h : Sound log pm) (hmay : MayPrune pm pm') : Sound log pm' where
  below := hmay.seq ▸ hmay.below h.below
  represents := by
    rcases hmay with rfl | ⟨_, hto⟩
    · exact h.represents
    · exact h.represents.prunesTo hto

theorem Sound.purgesTo (h : Sound log pm) (hto : PurgesTo pm pm' n folds mode) (hn : pm.seq < n) :
    Sound (logged log n folds mode) pm' := by
  refine ⟨hto.below h.below hn, ?_⟩
  obtain ⟨mid, hlive, -, hhard, hsoft, out, memo, hmay, rfl⟩ := hto
  have hfloor : mid.floor = pm.floor := by
    funext m
    cases m
    · exact hhard
    · exact hsoft
  have hmid : Represents (logged log n folds mode) mid.live mid.floor := by
    rw [hfloor]
    exact h.represents.upsertedAll.perm hlive
  have hout : Represents (logged log n folds mode) out.live out.floor := by
    rcases hmay with rfl | ⟨_, hprune⟩
    · exact hmid
    · exact hmid.prunesTo hprune
  exact hout

theorem Sound.init : Sound [] Map.init :=
  ⟨⟨fun _ he => by simp [Map.live, Map.init] at he, Nat.zero_le _, Nat.zero_le _⟩,
    ⟨nofun, fun _ he => by simp [Map.live, Map.init] at he⟩⟩

/-- A purge only raises the floors. -/
theorem PurgesTo.floor_le (h : PurgesTo pm pm' n folds mode) (m : PurgeMode) : pm.floor m ≤ pm'.floor m := by
  obtain ⟨mid, -, -, hhard, hsoft, out, memo, hmay, rfl⟩ := h
  have hmid : mid.floor m = pm.floor m := by
    cases m
    · exact hhard
    · exact hsoft
  rw [← hmid]
  rcases hmay with rfl | ⟨_, hto⟩
  · exact Nat.le_refl _
  · cases m
    · exact floor_le_raised.trans_eq hto.hard.symm
    · exact floor_le_raised.trans_eq hto.soft.symm

theorem History.Inv.init : History.init.Inv :=
  ⟨Map.WF.init, Sound.init, nofun⟩

theorem History.Inv.answered (h : s.Inv) (ha : Answered s.map folds mode p) : (s.answered p folds mode).Inv := by
  have hsound : Sound (s.answered p folds mode).log p.map := by
    unfold History.answered
    by_cases hr : p.reply = .accepted
    · simp only [hr, if_true]
      exact h.sound.purgesTo (ha.accepted hr).2 (Nat.lt_succ_self _)
    · simp only [hr, if_false]
      exact h.sound.same (ha.refused hr)
  refine ⟨ha.wf, hsound, fun c log hsaved => ?_⟩
  cases hw : p.written with
  | none =>
    simp only [History.answered, hw] at hsaved
    exact h.saved c log hsaved
  | some c' =>
    obtain ⟨-, out, rfl, hout⟩ := ha.written c' hw
    simp only [History.answered, hw] at hsaved
    cases hsaved
    have hwf := ha.wf
    rw [hout] at hsound hwf
    exact ⟨out, rfl, ⟨hwf.table, hwf.count, hwf.tomb⟩, hsound.of_memo⟩

/-- What becomes of the last checkpoint when a call may have written another. -/
theorem History.Inv.saved_or {w : Option Checkpoint} (h : s.Inv) (hwf : pm.WF) (hsound : Sound s.log pm)
    (hw : ∀ c, w = some c → c = pm.image) (log : List Purge)
    (hsaved : (w.map fun c => (c, s.log)).or s.saved = some (c, log)) :
    ∃ pm : Map, c = pm.image ∧ pm.WF ∧ Sound log pm := by
  cases w with
  | none => exact h.saved c log hsaved
  | some c' =>
    cases hsaved
    exact ⟨pm, hw c rfl, hwf, hsound⟩

theorem History.Inv.step {e : Event} (h : s.Inv) (hs : s.step cfg e = some t) : t.Inv := by
  cases e with
  | purge d mode env =>
    obtain ⟨p, hok, ha⟩ := purge_spec cfg env mode d h.wf
    simp only [History.step, hok, Option.some.injEq] at hs
    exact hs ▸ h.answered ha
  | purgeBatch ds mode env =>
    obtain ⟨p, hok, ha⟩ := purgeBatch_spec cfg env mode ds h.wf
    simp only [History.step, hok, Option.some.injEq] at hs
    exact hs ▸ h.answered ha
  -- A prune only raises floors, and a checkpoint that was written is the image of the map.
  | compact env =>
    obtain ⟨hwf, ⟨mid, hmay, hsame⟩, -, hwritten⟩ := compact_spec cfg env h.wf
    have hsound := (h.sound.mayPrune hmay).same hsame
    simp only [History.step] at hs
    split at hs
    · cases hs
    · cases hs
      exact ⟨hwf, hsound, fun c log => h.saved_or hwf hsound hwritten log⟩
  | checkpoint force env =>
    simp only [History.step] at hs
    split at hs
    · cases hs
      exact h
    · rename_i w hw
      cases hs
      exact ⟨h.wf, h.sound, fun c log => h.saved_or h.wf h.sound (fun c hc => checkpoint_image (hc ▸ hw)) log⟩
  -- A restore gives back the map that was saved, with the log of then.
  | restore env =>
    simp only [History.step] at hs
    split at hs
    · cases hs
      exact History.Inv.init
    · rename_i c log hsaved
      split at hs
      · cases hs
      · rename_i pm hok
        cases hs
        obtain ⟨pm₀, rfl, hwf₀, hsound₀⟩ := h.saved c log hsaved
        rcases restore_spec env hwf₀.image with ⟨pm', hok', hwf, hlive, hseq, -, hhard, hsoft⟩ | ⟨f, herr, -⟩
        · rw [hok] at hok'
          cases hok'
          refine ⟨hwf, hsound₀.same ⟨hlive, hseq, hhard, hsoft⟩, fun c log hc => ?_⟩
          cases hc
          exact ⟨pm₀, rfl, hwf₀, hsound₀⟩
        · rw [hok] at herr
          cases herr
  | replay d mode n env =>
    simp only [History.step] at hs
    rcases replayOne_spec cfg env mode n d h.wf with
      ⟨pm', hok, hwf, hn, hto⟩ | ⟨f, herr, -⟩
    · rw [hok] at hs
      cases hs
      exact ⟨hwf, h.sound.purgesTo hto hn, h.saved⟩
    · rw [herr] at hs
      cases hs
  | replayBatch ds mode n env =>
    simp only [History.step] at hs
    rcases replayBatch_spec cfg env mode n ds h.wf with
      ⟨pm', hok, hwf, hn, hto⟩ | ⟨f, herr, -⟩
    · rw [hok] at hs
      cases hs
      exact ⟨hwf, h.sound.purgesTo hto hn, h.saved⟩
    · rw [herr] at hs
      cases hs

theorem History.reach_inv (h : Machine.Reach (History.step cfg) Machine.always History.init s) : s.Inv :=
  h.inv History.Inv.init fun _ hi _ hs => hi.step hs

/-- A call of a running namespace, as opposed to the steps of its restart. -/
def Event.Running : Event → Prop
  | .restore _ | .replay .. | .replayBatch .. => False
  | _ => True

/-- No call on a map in order hangs in a probe loop; only a restart can fail. -/
theorem History.Inv.step_total {e : Event} (h : s.Inv) (hr : e.Running) : ∃ t, s.step cfg e = some t := by
  cases e with
  | purge d mode env =>
    obtain ⟨p, hok, -⟩ := purge_spec cfg env mode d h.wf
    simp only [History.step, hok]
    exact ⟨_, rfl⟩
  | purgeBatch ds mode env =>
    obtain ⟨p, hok, -⟩ := purgeBatch_spec cfg env mode ds h.wf
    simp only [History.step, hok]
    exact ⟨_, rfl⟩
  | compact env =>
    obtain ⟨-, -, hfault, -⟩ := compact_spec cfg env h.wf
    simp only [History.step, if_neg hfault]
    exact ⟨_, rfl⟩
  | checkpoint force env =>
    simp only [History.step]
    split <;> exact ⟨_, rfl⟩
  | restore | replay | replayBatch => exact hr.elim

end Inv

/-- Whatever purges, prunes, rollbacks, rebuilds and restarts a map has gone through, its probe ends with a
    verdict at least as strong as the log's; behind both floors it is the log's, so that nothing but a later
    purge of one of its tags invalidates an object; and it depends on the set of the folds alone. -/
theorem probe_refines_log (cfg : Config) (s : History)
    (h : Machine.Reach (History.step cfg) Machine.always History.init s) (regSeq : Nat) (folds : List Fold) :
    ∃ v, probe s.map regSeq (folds.map Fold.val) = some v ∧
      strength (logVerdict s.log regSeq (folds.map Fold.val)) ≤ strength v ∧
      (s.map.hardFloor ≤ regSeq → s.map.softFloor ≤ regSeq →
        v = logVerdict s.log regSeq (folds.map Fold.val) ∧
        (v ≠ .none → ∃ p ∈ s.log, regSeq < p.seq ∧ p.fold ∈ folds.map Fold.val)) ∧
      ∀ folds' : List Fold, (∀ f, f ∈ folds' ↔ f ∈ folds) → probe s.map regSeq (folds'.map Fold.val) = some v := by
  have hinv := History.reach_inv h
  obtain ⟨hle, heq⟩ := hinv.sound.represents.verdict regSeq (folds.map Fold.val)
  refine ⟨_, probe_spec hinv.wf, hle, fun hh hs => ⟨heq hh hs, fun hne => ?_⟩, fun folds' hf => ?_⟩
  · rw [heq hh hs, logVerdict] at hne
    split at hne
    · rename_i hp
      obtain ⟨p, hp, -, hfold, hlt⟩ := hp
      exact ⟨p, hp, hlt, hfold⟩
    split at hne
    · rename_i hp
      obtain ⟨p, hp, -, hfold, hlt⟩ := hp
      exact ⟨p, hp, hlt, hfold⟩
    · exact absurd rfl hne
  · rw [probe_spec hinv.wf]
    congr 1
    exact mapVerdict_congr (fun _ => Iff.rfl) fun x => by simp only [List.mem_map, hf]

/-- Three purges of three tags, the last of which prunes the history to a single entry. -/
def threePurges : List Event :=
  [.purge ⟨0, 5⟩ .hard .ok, .purgeBatch [⟨0, 7⟩, ⟨7, 0⟩] .soft .ok, .purge ⟨0, 9⟩ .soft .ok]

theorem probe_refines_log_pruned : ∃ s, Machine.run (History.step ⟨1, false⟩) History.init threePurges = some s ∧
    ∃ v, probe s.map 1 [5] = some v ∧ strength (logVerdict s.log 1 [5]) ≤ strength v := by
  have hrun : (Machine.run (History.step ⟨1, false⟩) History.init threePurges).isSome := by decide +kernel
  obtain ⟨s, hs⟩ := Option.isSome_iff_exists.mp hrun
  obtain ⟨v, hv, hle, -⟩ := probe_refines_log ⟨1, false⟩ s (.of_run hs) 1 [foldDigest ⟨0, 5⟩]
  exact ⟨s, hs, v, hv, hle⟩

end Cachetag.Purgemap
