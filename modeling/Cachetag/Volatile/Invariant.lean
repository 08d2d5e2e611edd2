import Cachetag.SideTable.Sections
import Cachetag.Volatile.Index

/-! The invariant of the volatile index, as long as no side table has become full, and what each critical
section does to the dense array. -/

namespace Cachetag.Index
open Registry SideIndex

variable {α : Type*} {cfg : Config α} {s s' t : Index α} {i : Nat} {c c' : AttachCall α} {point : AttachPoint}
  {ent : ObjEnt α ObjVal} {side : SideIndex α ObjVal} {r : Registry}

/-- The nodes that the dense entries point to. -/
def held (objects : List (ObjEnt α ObjVal)) : List Nat := objects.filterMap (·.val.node?)

/-- The folds of all objects, counted. -/
def foldSum (cfg : Config α) (r : Registry) (objects : List (ObjEnt α ObjVal)) : Nat :=
  (objects.map fun e => (membershipView cfg r e.val).nfolds).sum

/-- The locals of an attach that has not failed. -/
structure Fit (cfg : Config α) (c : AttachCall α) : Prop where
  some' : c.folds ≠ []
  few : c.folds.length ≤ cfg.maxKeys
  perm : c.folds.Perm c.given
  sorted : cfg.interned = true → c.folds.Pairwise (· ≤ ·)
  direct : cfg.interned = false → 1 < c.folds.length → c.point = .done none ∨ c.direct = some (directVector c.folds)
  candidate : ∀ set, c.candidate = some set → set = candidateFor cfg c.folds

/-- A dense entry is what the attach `c` wrote. -/
structure Wrote (cfg : Config α) (r : Registry) (c : AttachCall α) (e : ObjEnt α ObjVal) : Prop where
  point : c.point = .done none
  oc : c.oc = e.oc
  regSeq : c.regSeq = e.val.regSeq
  encodes : Encodes cfg r e.val c.folds

/-- The invariant. -/
structure Inv (cfg : Config α) (s : Index α) : Prop where
  sound : Sound cfg.sideHash s.side
  calls : ∀ c ∈ s.calls, (∀ e, c.point ≠ .done (some e)) → Fit cfg c
  entries : ∀ e ∈ s.side.objects, ∃ c, s.calls[e.val.call]? = some c ∧ Wrote cfg s.registry c e
  once : (s.side.objects.map (·.val.call)).Nodup
  shared : Shared cfg.internHash s.registry (held s.side.objects)
  edges : s.edges = foldSum cfg s.registry s.side.objects
  directory : ∃ k, s.directory.Holds s.side.objects.length k
  sealed : s.retired = true → s.side.objects = []

/-- What a section leaves that neither attaches nor removes. -/
structure Rests (s s' : Index α) : Prop where
  objects : s'.side.objects = s.side.objects
  sweepActive : s'.side.sweepActive = s.side.sweepActive
  sweepRemaining : s'.side.sweepRemaining = s.side.sweepRemaining
  extends' : Extends s.registry s'.registry
  retired : s'.retired = s.retired
  calls : ∀ (i : Nat) (c : AttachCall α), s.calls[i]? = some c → c.point = .done none → s'.calls[i]? = some c

theorem Rests.refl : Rests s s := ⟨rfl, rfl, rfl, .refl, rfl, fun _ _ h _ => h⟩

theorem Rests.trans (h₁ : Rests s t) (h₂ : Rests t s') : Rests s s' where
  objects := h₂.objects.trans h₁.objects
  sweepActive := h₂.sweepActive.trans h₁.sweepActive
  sweepRemaining := h₂.sweepRemaining.trans h₁.sweepRemaining
  extends' := h₁.extends'.trans h₂.extends'
  retired := h₂.retired.trans h₁.retired
  calls i c hc hp := h₂.calls i c (h₁.calls i c hc hp) hp

theorem Wrote.extends {r' : Registry} (h : Wrote cfg r c ent) (he : Extends r r') : Wrote cfg r' c ent :=
  ⟨h.point, h.oc, h.regSeq, h.encodes.extends he⟩

theorem Inv.view (h : Inv cfg s) (he : ent ∈ s.side.objects) :
    ∃ c, s.calls[ent.val.call]? = some c ∧ Wrote cfg s.registry c ent ∧ Fit cfg c ∧
      membershipView cfg s.registry ent.val = ⟨c.folds, c.folds.length⟩ := by
  obtain ⟨c, hc, hw⟩ := h.entries ent he
  refine ⟨c, hc, hw, h.calls c (List.mem_of_getElem? hc) ?_, hw.encodes.view⟩
  intro e hp
  rw [hw.point] at hp
  cases hp

theorem Inv.view_extends (h : Inv cfg s) (he : ent ∈ s.side.objects) (hext : Extends s.registry r) :
    membershipView cfg r ent.val = membershipView cfg s.registry ent.val := by
  obtain ⟨c, -, hw, -, hv⟩ := h.view he
  rw [hv, (hw.encodes.extends hext).view]

theorem Inv.foldSum_extends (h : Inv cfg s) (hext : Extends s.registry r) :
    foldSum cfg r s.side.objects = foldSum cfg s.registry s.side.objects := by
  unfold foldSum
  rw [List.map_congr_left fun e he => by rw [h.view_extends he hext]]

/-! ### Parts -/

/-- A change of the side tables. -/
theorem Inv.resize (h : Inv cfg s) (hres : Resizes cfg.sideHash s.side side) :
    Inv cfg { s with side } ∧ Rests s { s with side } := by
  refine ⟨⟨hres.sound, h.calls, ?_, ?_, ?_, ?_, ?_, ?_⟩, ⟨hres.objects, hres.sweepActive, hres.sweepRemaining, .refl,
    rfl, fun _ _ hc _ => hc⟩⟩
  all_goals simp only [hres.objects]
  · exact h.entries
  · exact h.once
  · exact h.shared
  · exact h.edges
  · exact h.directory
  · exact h.sealed

/-- A change of the registry. -/
theorem Inv.settle (h : Inv cfg s) (hs : Shared cfg.internHash r (held s.side.objects)) (hext : Extends s.registry r) :
    Inv cfg { s with registry := r } ∧ Rests s { s with registry := r } := by
  refine ⟨⟨h.sound, h.calls, fun e he => ?_, h.once, hs, ?_, h.directory, h.sealed⟩, ⟨rfl, rfl, rfl, hext, rfl,
    fun _ _ hc _ => hc⟩⟩
  · obtain ⟨c, hc, hw⟩ := h.entries e he
    exact ⟨c, hc, hw.extends hext⟩
  · exact h.edges.trans (h.foldSum_extends hext).symm

theorem Inv.direct (h : Inv cfg s) {d : Directory} (hd : ∃ k, d.Holds s.side.objects.length k) :
    Inv cfg { s with directory := d } ∧ Rests s { s with directory := d } :=
  ⟨⟨h.sound, h.calls, h.entries, h.once, h.shared, h.edges, hd, h.sealed⟩, ⟨rfl, rfl, rfl, .refl, rfl,
    fun _ _ hc _ => hc⟩⟩

/-- An attach goes to its next point. -/
theorem Inv.stop (h : Inv cfg s) (hc : s.calls[i]? = some c) (hp : c.point ≠ .done none)
    (hfit : (∀ e, point ≠ .done (some e)) → Fit cfg { c' with point }) :
    Inv cfg (s.stop i c' point) ∧ Rests s (s.stop i c' point) := by
  have hkept : ∀ (j : Nat) (d : AttachCall α), s.calls[j]? = some d → d.point = .done none → (s.stop i c' point).calls[j]? = some d := by
    intro j d hd hdone
    have hji : i ≠ j := by
      rintro rfl
      cases hc.symm.trans hd
      exact hp hdone
    show (s.calls.set i _)[j]? = some d
    rw [List.getElem?_set_ne hji]
    exact hd
  refine ⟨⟨h.sound, fun d hd hdone => ?_, fun e he => ?_, h.once, h.shared, h.edges, h.directory, h.sealed⟩,
    ⟨rfl, rfl, rfl, .refl, rfl, hkept⟩⟩
  · rcases List.mem_or_eq_of_mem_set hd with hd | rfl
    · exact h.calls d hd hdone
    · exact hfit hdone
  · obtain ⟨d, hd, hw⟩ := h.entries e he
    exact ⟨d, hkept _ d hd hw.point, hw⟩

theorem Fit.moved (h : Fit cfg c) (hp : c.point ≠ .done none) : Fit cfg { c with point } where
  some' := h.some'
  few := h.few
  perm := h.perm
  sorted := h.sorted
  direct hmode hlen := .inr ((h.direct hmode hlen).resolve_left hp)
  candidate := h.candidate

theorem Inv.go (h : Inv cfg s) (hc : s.calls[i]? = some c) (hp : ∀ e, c.point ≠ .done e) :
    Inv cfg (s.stop i c point) ∧ Rests s (s.stop i c point) :=
  h.stop hc (hp none) fun _ => (h.calls c (List.mem_of_getElem? hc) fun e => hp (some e)).moved (hp none)

theorem Inv.new : Inv cfg (Index.new : Index α) where
  sound := .new
  calls := by simp [Index.new]
  entries := by simp [Index.new, SideIndex.new]
  once := List.nodup_nil
  shared := .new
  edges := rfl
  directory := ⟨0, .new⟩
  sealed := fun _ => rfl

/-! ### Attach -/

/-- The fresh locals fit. -/
theorem fit_prepare {oc : α} {given : List Nat} {regSeq : Nat} {allocated : Bool}
    (hp : ∀ e, (prepare cfg oc given regSeq allocated).point ≠ .done (some e)) :
    Fit cfg (prepare cfg oc given regSeq allocated) := by
  unfold prepare at hp ⊢
  dsimp only at hp ⊢
  split_ifs at hp ⊢ with hbad hone hmode halloc hfew halloc
  · exact absurd rfl (hp _)
  · obtain ⟨fold, rfl⟩ := List.length_eq_one_iff.mp hone
    obtain ⟨-, hmax⟩ := not_or.mp hbad
    exact ⟨by simp, Nat.le_of_not_lt hmax, .refl _, fun _ => List.pairwise_singleton _ _, fun _ hlen => by simp at hlen,
      fun set hset => by cases hset⟩
  · obtain ⟨hsome, hmax⟩ := not_or.mp hbad
    have hmode : cfg.interned = false := by simpa using hmode
    exact ⟨fun hnil => hsome (by rw [show given = [] from hnil]; rfl), Nat.le_of_not_lt hmax, .refl _,
      fun hint => by simp [hmode] at hint, fun _ _ => .inr rfl, fun set hset => by cases hset⟩
  · exact absurd rfl (hp _)
  all_goals
    obtain ⟨hsome, hmax⟩ := not_or.mp hbad
    have hmode : cfg.interned = true := by simpa using hmode
  · exact ⟨fun hnil => hsome (by rw [← length_internSort, show internSort given = [] from hnil]; rfl),
      by rw [length_internSort]; exact Nat.le_of_not_lt hmax, internSort_perm given,
      fun _ => internSort_sorted given, fun hdir => by simp [hmode] at hdir, fun set hset => by cases hset⟩
  · exact ⟨fun hnil => hsome (by rw [← length_internSort, show internSort given = [] from hnil]; rfl),
      by rw [length_internSort]; exact Nat.le_of_not_lt hmax, internSort_perm given,
      fun _ => internSort_sorted given, fun hdir => by simp [hmode] at hdir, fun set hset => by cases hset; rfl⟩
  · exact absurd rfl (hp _)

theorem Inv.begin (h : Inv cfg s) (oc : α) (given : List Nat) (regSeq : Nat) (allocated : Bool) :
    Inv cfg { s with calls := s.calls ++ [prepare cfg oc given regSeq allocated] } ∧
      Rests s { s with calls := s.calls ++ [prepare cfg oc given regSeq allocated] } := by
  have hkept : ∀ (j : Nat) (d : AttachCall α), s.calls[j]? = some d → (s.calls ++ [prepare cfg oc given regSeq allocated])[j]? = some d := by
    intro j d hd
    rw [List.getElem?_append_left (List.getElem?_eq_some_iff.mp hd).1]
    exact hd
  refine ⟨⟨h.sound, fun d hd hdone => ?_, fun e he => ?_, h.once, h.shared, h.edges, h.directory, h.sealed⟩,
    ⟨rfl, rfl, rfl, .refl, rfl, fun j d hd _ => hkept j d hd⟩⟩
  · rcases List.mem_append.mp hd with hd | hd
    · exact h.calls d hd hdone
    · rw [List.mem_singleton.mp hd] at hdone ⊢
      exact fit_prepare hdone
  · obtain ⟨d, hd, hw⟩ := h.entries e he
    exact ⟨d, hkept _ d hd, hw⟩

/-- What an attach leaves that succeeds: its entry behind the others. -/
structure Attached (cfg : Config α) (s s' : Index α) (i : Nat) (c : AttachCall α) : Prop where
  waiting : ∀ e, c.point ≠ .done e
  fresh : c.oc ∉ s.side.ocs
  objects : ∃ ent : ObjEnt α ObjVal, s'.side.objects = s.side.objects ++ [ent] ∧ ent.oc = c.oc ∧ ent.val.call = i ∧
    ent.val.regSeq = c.regSeq ∧ Encodes cfg s'.registry ent.val c.folds
  sweepActive : s'.side.sweepActive = s.side.sweepActive
  sweepRemaining : s'.side.sweepRemaining = s.side.sweepRemaining
  extends' : Extends s.registry s'.registry
  retired : s'.retired = s.retired
  calls : ∀ (j : Nat) (d : AttachCall α), s.calls[j]? = some d → d.point = .done none → s'.calls[j]? = some d
  done : ∃ d : AttachCall α, s'.calls[i]? = some d ∧ d.point = .done none

/-- What a section of the attach `i` leaves. -/
def Attaching (cfg : Config α) (s s' : Index α) (i : Nat) (c : AttachCall α) : Prop :=
  Rests s s' ∧ (∀ d, s'.calls[i]? = some d → d.point ≠ .done none) ∨ Attached cfg s s' i c

theorem Rests.attached (h : Rests s t) (ha : Attached cfg t s' i c) : Attached cfg s s' i c where
  waiting := ha.waiting
  fresh := by
    have := ha.fresh
    rwa [ocs_congr h.objects] at this
  objects := by
    obtain ⟨ent, hobj, hrest⟩ := ha.objects
    exact ⟨ent, by rw [hobj, h.objects], hrest⟩
  sweepActive := ha.sweepActive.trans h.sweepActive
  sweepRemaining := ha.sweepRemaining.trans h.sweepRemaining
  extends' := h.extends'.trans ha.extends'
  retired := ha.retired.trans h.retired
  calls j d hd hp := ha.calls j d (h.calls j d hd hp) hp
  done := ha.done

theorem Rests.attaching (h : Rests s t) (ha : Attaching cfg t s' i c) : Attaching cfg s s' i c :=
  ha.imp (fun ⟨hr, hd⟩ => ⟨h.trans hr, hd⟩) h.attached

theorem stop_point (hp : point ≠ .done none) : ∀ d, (s.stop i c point).calls[i]? = some d → d.point ≠ .done none := by
  intro d hd
  replace hd : (s.calls.set i { c with point })[i]? = some d := hd
  rw [List.getElem?_set, if_pos rfl] at hd
  split at hd
  · cases hd
    exact hp
  · cases hd

theorem Inv.none_wrote (h : Inv cfg s) (hc : s.calls[i]? = some c) (hp : c.point ≠ .done none) :
    ∀ e ∈ s.side.objects, e.val.call ≠ i := by
  rintro e he rfl
  obtain ⟨d, hd, hw⟩ := h.entries e he
  cases hc.symm.trans hd
  exact hp hw.point

section Sections
variable [DecidableEq α]

/-- The attach `i` gets to its end. -/
structure Ready (s : Index α) (i : Nat) (c : AttachCall α) : Prop where
  open' : s.side.Open
  call : s.calls[i]? = some c
  point : ∀ e, c.point ≠ .done e
  sealed : s.retired = false
  room : s.side.objects.length ≠ s.directory.capobjects
  table : s.side.primary.buckets ≠ 0
  takes : s.side.TakesIn c.oc

/-- The end of an attach. The registry counts the new reference already. -/
theorem Inv.attachAppend (h : Inv cfg s) (hready : Ready s i c) (hfit : Fit cfg c') (hoc : c'.oc = c.oc)
    (hreg : c'.regSeq = c.regSeq) (hfolds : c'.folds = c.folds) {membership : Membership}
    (hshared : Shared cfg.internHash r ((match membership with | .set n => [n] | _ => []) ++ held s.side.objects))
    (hext : Extends s.registry r)
    (henc : Encodes cfg r ⟨c.regSeq, objcountCode c.folds.length, membership, i⟩ c.folds) :
    Inv cfg (attachAppend cfg { s with registry := r } i c' membership) ∧
      Attached cfg s (attachAppend cfg { s with registry := r } i c' membership) i c := by
  obtain ⟨ent, hent⟩ : ∃ ent : ObjEnt α ObjVal, ent = ⟨c.oc, ⟨c.regSeq, objcountCode c.folds.length, membership, i⟩⟩ :=
    ⟨_, rfl⟩
  have hentoc : ent.oc = c.oc := by rw [hent]
  have hval : ent.val = ⟨c.regSeq, objcountCode c.folds.length, membership, i⟩ := by rw [hent]
  obtain ⟨side, happ, hsound, hobj, hact, hrem, -⟩ :=
    @SideIndex.Sound.append _ _ _ _ ent _ h.sound hready.open' hready.table (hentoc ▸ hready.takes)
  have hres : Index.attachAppend cfg { s with registry := r } i c' membership =
      ({ s with registry := r, side, edges := s.edges + c'.folds.length } : Index α).stop i { c' with direct := none }
        (.done none) := by
    unfold Index.attachAppend
    rw [hoc, hreg, hfolds, ← hent]
    simp only [happ]
  rw [hres]
  have hlt := (List.getElem?_eq_some_iff.mp hready.call).1
  have hset : (s.calls.set i { c' with direct := none, point := .done none })[i]? =
      some { c' with direct := none, point := .done none } := List.getElem?_set_self hlt
  -- The calls that have returned are others, as this one had not.
  have hkept : ∀ (j : Nat) (d : AttachCall α), s.calls[j]? = some d → d.point = .done none →
      (s.calls.set i { c' with direct := none, point := .done none })[j]? = some d := by
    intro j d hd hdone
    have hji : i ≠ j := by
      rintro rfl
      cases hready.call.symm.trans hd
      exact hready.point none hdone
    rw [List.getElem?_set_ne hji]
    exact hd
  -- The new entry says of itself what the call had to say.
  have hwrote : Wrote cfg r { c' with direct := none, point := .done none } ent :=
    ⟨rfl, by rw [hentoc, ← hoc], by rw [hval, ← hreg], by rw [hval, hfolds]; exact henc⟩
  refine ⟨⟨hsound, fun d hd hdone => ?_, fun e he => ?_, ?_, ?_, ?_, ?_, fun hr => ?_⟩, ?_⟩
  · rcases List.mem_or_eq_of_mem_set hd with hd | rfl
    · exact h.calls d hd hdone
    · exact ⟨hfit.some', hfit.few, hfit.perm, hfit.sorted, fun _ _ => .inl rfl, hfit.candidate⟩
  · replace he : e ∈ side.objects := he
    rw [hobj] at he
    rcases List.mem_append.mp he with he | he
    · obtain ⟨d, hd, hw⟩ := h.entries e he
      exact ⟨d, hkept _ d hd hw.point, hw.extends hext⟩
    · rw [List.mem_singleton.mp he]
      refine ⟨_, ?_, hwrote⟩
      show (s.calls.set i _)[ent.val.call]? = _
      rw [hval]
      exact hset
  · show (side.objects.map (·.val.call)).Nodup
    rw [hobj, List.map_append]
    refine List.Nodup.append h.once (List.nodup_singleton _) fun j hj hj' => ?_
    obtain ⟨e, he, rfl⟩ := List.mem_map.mp hj
    refine h.none_wrote hready.call (hready.point none) e he ?_
    rw [List.mem_singleton.mp hj']
    show ent.val.call = i
    rw [hval]
  · show Shared cfg.internHash r (held side.objects)
    refine hshared.perm ?_
    rw [hobj, held, List.filterMap_append]
    refine List.perm_append_comm.trans (List.Perm.append_right _ ?_)
    rw [List.filterMap_cons, hval]
    cases membership <;> exact .refl _
  · show s.edges + c'.folds.length = foldSum cfg r side.objects
    have hview := hwrote.encodes.view
    rw [hobj, foldSum, List.map_append, List.sum_append, h.edges, ← h.foldSum_extends hext]
    simp [foldSum, hview]
  · obtain ⟨k, hk⟩ := h.directory
    refine ⟨k, ?_⟩
    show s.directory.Holds side.objects.length k
    have := hk.room
    have := hready.room
    exact ⟨hk.few, hk.segments, hk.capobjects, by rw [hobj, List.length_append, List.length_singleton]; omega⟩
  · exact absurd (hready.sealed.symm.trans hr) (by simp)
  · exact
      { waiting := hready.point
        fresh := hready.takes.2
        objects := ⟨ent, hobj, hentoc, by rw [hval], by rw [hval], by rw [hval]; exact henc⟩
        sweepActive := hact
        sweepRemaining := hrem
        extends' := hext
        retired := rfl
        calls := hkept
        done := ⟨_, hset, rfl⟩ }

omit [DecidableEq α] in
theorem Fit.congr (h : Fit cfg c) (hfolds : c'.folds = c.folds) (hgiven : c'.given = c.given)
    (hpoint : c'.point = c.point) (hdirect : c'.direct = c.direct)
    (hcand : c'.candidate = none ∨ c'.candidate = c.candidate) : Fit cfg c' where
  some' := hfolds ▸ h.some'
  few := hfolds ▸ h.few
  perm := by
    rw [hfolds, hgiven]
    exact h.perm
  sorted := by
    rw [hfolds]
    exact h.sorted
  direct := by
    rw [hfolds, hpoint, hdirect]
    exact h.direct
  candidate set hset := by
    rw [hfolds]
    rcases hcand with hnone | hsame
    · rw [hnone] at hset
      cases hset
    · exact h.candidate set (hsame ▸ hset)

omit [DecidableEq α] in
theorem canonical_candidateFor (hfit : Fit cfg c) (hmode : cfg.interned = true) (hlen : 1 < c.folds.length) :
    Canonical cfg.internHash (candidateFor cfg c.folds) := ⟨rfl, rfl, hlen, hfit.sorted hmode⟩

/-- The interning end of an attach, from the lookup on. -/
theorem Inv.attachLookup (h : Inv cfg s) (hready : Ready s i c) (hint : interning cfg c = true) (hfit : Fit cfg c')
    (hp : ∀ e, c'.point ≠ .done e) (hoc : c'.oc = c.oc) (hreg : c'.regSeq = c.regSeq) (hfolds : c'.folds = c.folds) :
    Inv cfg (attachLookup cfg s i c') ∧ Attaching cfg s (attachLookup cfg s i c') i c := by
  obtain ⟨hmode, hlen⟩ : cfg.interned = true ∧ 1 < c.folds.length := by simpa [interning] using hint
  -- What the end of the section gets for a node that counts the new reference.
  have encodes : ∀ (r : Registry) (n : Nat), Shared cfg.internHash r (n :: held s.side.objects) →
      n < r.nodes.length → (r.setAt n).folds = c.folds →
      Encodes cfg r ⟨c.regSeq, objcountCode c.folds.length, .set n, i⟩ c.folds := fun r n hs hn hf =>
    ⟨hfolds ▸ hfit.some', hfolds ▸ hfit.few, rfl, hmode, hlen, hn, hf, by rw [(hs.books.node n hn).nfolds, hf]⟩
  unfold Index.attachLookup
  cases hl : s.registry.lookup c'.folds (cfg.internHash c'.folds) with
  | mk found r =>
    cases found with
    | some n =>
      obtain ⟨hs, hext, hn, hf⟩ := h.shared.lookup_some hl
      rw [hfolds] at hf
      have hn' := Nat.lt_of_lt_of_le hn hext.length
      obtain ⟨hinv, hatt⟩ := @Inv.attachAppend _ _ _ _ _ _ _ _ h hready hfit hoc hreg hfolds (.set n) hs hext
        (encodes r n hs hn' ((hext.folds n hn).trans hf))
      exact ⟨hinv, .inr hatt⟩
    | none =>
      obtain ⟨rfl, hfresh⟩ := h.shared.lookup_none hl
      have wait : ∀ point, point ≠ .done none →
          Inv cfg (s.stop i c' point) ∧ Attaching cfg s (s.stop i c' point) i c := by
        intro point hpoint
        obtain ⟨hinv, hrest⟩ := @Inv.stop _ _ _ _ _ c' point h hready.call (hready.point none) fun _ =>
          hfit.moved (hp none)
        exact ⟨hinv, .inl ⟨hrest, stop_point hpoint⟩⟩
      dsimp only
      cases hprep : (if c'.growFailed = true then InternPrepare.ready else s.registry.prepareInsert) with
      | again n => exact wait _ (by simp)
      | ready =>
        dsimp only
        split
        · exact wait _ (by simp)
        · rename_i hnull
          cases hcand : c'.candidate with
          | none => exact wait _ (by simp)
          | some candidate =>
            have hcanon := hfit.candidate candidate hcand
            subst hcanon
            rw [hfolds] at hfresh
            obtain ⟨hs, hext, hn, hf⟩ := h.shared.publish hnull
              (canonical_candidateFor hfit hmode (by rw [hfolds]; exact hlen)) (by rw [hfolds]; exact hfresh)
            obtain ⟨hinv, hatt⟩ := @Inv.attachAppend _ _ _ _ _ { c' with candidate := none } _ _ h hready
              (hfit.congr rfl rfl rfl rfl (.inl rfl)) hoc hreg hfolds (.set _) hs hext
              (encodes _ _ hs hn (hf.trans hfolds))
            exact ⟨hinv, .inr hatt⟩

omit [DecidableEq α] in
theorem Ready.settle (h : Ready s i c) : Ready { s with registry := r } i c :=
  ⟨h.open', h.call, h.point, h.sealed, h.room, h.table, h.takes⟩

theorem Inv.attachIntern (h : Inv cfg s) (hready : Ready s i c) (hint : interning cfg c = true) :
    Inv cfg (attachIntern cfg s i c) ∧ Attaching cfg s (attachIntern cfg s i c) i c := by
  have hfit := h.calls c (List.mem_of_getElem? hready.call) fun e => hready.point (some e)
  unfold Index.attachIntern
  split
  · obtain ⟨hs, hm⟩ := h.shared.migrate internMigrateSteps
    obtain ⟨hinv, hrest⟩ := h.settle hs hm.extends
    obtain ⟨hinv', hatt⟩ := @Inv.attachLookup _ _ _ _ _ { c with budgetUsed := true } _ hinv hready.settle hint
      (hfit.congr rfl rfl rfl rfl (.inr rfl)) hready.point rfl rfl rfl
    exact ⟨hinv', hrest.attaching hatt⟩
  · exact h.attachLookup hready hint hfit hready.point rfl rfl rfl

/-- The end of an attach without a node. -/
theorem Inv.attachPlain (h : Inv cfg s) (hready : Ready s i c) (hint : interning cfg c = false) :
    Inv cfg (attachPlain cfg s i c) ∧ Attaching cfg s (attachPlain cfg s i c) i c := by
  have hfit := h.calls c (List.mem_of_getElem? hready.call) fun e => hready.point (some e)
  have attaches : ∀ membership : Membership, membership = .inlineOne (c.folds.headD 0) ∨
      (∃ v, membership = .vector v) →
      Encodes cfg s.registry ⟨c.regSeq, objcountCode c.folds.length, membership, i⟩ c.folds →
      Inv cfg (Index.attachAppend cfg s i c membership) ∧
        Attaching cfg s (Index.attachAppend cfg s i c membership) i c := by
    intro membership hform henc
    obtain ⟨hinv, hatt⟩ := @Inv.attachAppend _ _ _ _ _ _ s.registry _ h hready hfit rfl rfl rfl membership
      (by rcases hform with rfl | ⟨v, rfl⟩ <;> exact h.shared) .refl henc
    exact ⟨hinv, .inr hatt⟩
  unfold Index.attachPlain
  by_cases hone : ∃ fold, c.folds = [fold]
  · obtain ⟨fold, hfold⟩ := hone
    simp only [hfold]
    refine attaches _ (.inl (by rw [hfold]; rfl)) ?_
    rw [hfold]
    exact ⟨by simp, hfold ▸ hfit.few, rfl, rfl⟩
  · have hlen : 1 < c.folds.length := by
      have hne := hfit.some'
      rcases hf : c.folds with _ | ⟨a, _ | ⟨b, l⟩⟩
      · exact absurd hf hne
      · exact absurd ⟨a, hf⟩ hone
      · simp
    have hmode : cfg.interned = false := by simpa [interning, hlen] using hint
    have hdirect := (hfit.direct hmode hlen).resolve_left (hready.point none)
    split
    · rename_i fold hfold
      exact absurd ⟨fold, hfold⟩ hone
    · rw [hdirect]
      exact attaches _ (.inr ⟨_, rfl⟩) ⟨hfit.some', hfit.few, rfl, hmode, hlen, rfl⟩

theorem Inv.attachAgain (h : Inv cfg s) (hopen : s.side.Open) (hc : s.calls[i]? = some c)
    (hp : ∀ e, c.point ≠ .done e) :
    Inv cfg (attachAgain cfg s i c) ∧ Attaching cfg s (attachAgain cfg s i c) i c := by
  -- Each of the early exits stops the call and leaves the index alone.
  have wait : ∀ point, point ≠ .done none → Inv cfg (s.stop i c point) ∧ Attaching cfg s (s.stop i c point) i c :=
    fun point hpoint => by
      obtain ⟨hinv, hrest⟩ := @Inv.go _ _ _ _ _ point h hc hp
      exact ⟨hinv, .inl ⟨hrest, stop_point hpoint⟩⟩
  unfold Index.attachAgain
  by_cases hret : s.retired = true
  · rw [if_pos hret]
    exact wait _ (by simp)
  rw [if_neg hret]
  by_cases hmax : sideMaxObjects ≤ s.side.objects.length
  · rw [if_pos hmax]
    exact wait _ (by simp)
  rw [if_neg hmax]
  by_cases ho : c.oc ∈ s.side.ocs
  · obtain ⟨a, ha⟩ := List.mem_iff_getElem?.mp ho
    obtain ⟨r, b, hf, -⟩ := h.sound.filed.find_found hopen ha
    rw [hf]
    exact wait _ (by simp)
  rw [h.sound.filed.find_absent hopen ho]
  dsimp only
  by_cases hcap : s.side.objects.length = s.directory.capobjects
  · rw [if_pos hcap]
    split
    · exact wait _ (by simp)
    · exact wait _ (by simp)
  rw [if_neg hcap]
  -- From here on the call has looked at everything but the table, which may start a migration.
  have hprep := h.sound.prepareInsert
  cases hpi : s.side.prepareInsert with
  | mk side p =>
    rw [hpi] at hprep
    obtain ⟨hinv, hrest⟩ := h.resize hprep.resizes
    have wait' : ∀ point, point ≠ .done none →
        Inv cfg (({ s with side } : Index α).stop i c point) ∧
          Attaching cfg s (({ s with side } : Index α).stop i c point) i c := fun point hpoint => by
      obtain ⟨hinv', hrest'⟩ := @Inv.go _ _ _ _ _ point hinv hc hp
      exact ⟨hinv', .inl ⟨hrest.trans hrest', stop_point hpoint⟩⟩
    cases p with
    | again n reason => exact wait' _ (by simp)
    | busy =>
      refine wait' _ ?_
      split <;> simp
    | overflow => exact wait' _ (by simp)
    -- The lock has not been given up since the checks, so that they still hold.
    | ready =>
      obtain ⟨hb, -⟩ := hprep.ready rfl
      have hready : Ready { s with side } i c :=
        { open' := hprep.open' hopen
          call := hc
          point := hp
          sealed := by simpa using hret
          room := by
            show side.objects.length ≠ _
            rw [hprep.resizes.objects]
            exact hcap
          table := hb
          takes := by
            show side.TakesIn c.oc
            unfold TakesIn
            rw [hprep.resizes.objects, ocs_congr hprep.resizes.objects]
            exact ⟨Nat.lt_of_not_le hmax, ho⟩ }
      dsimp only
      split
      · rename_i hint
        obtain ⟨hinv', hatt⟩ := hinv.attachIntern hready hint
        exact ⟨hinv', hrest.attaching hatt⟩
      · rename_i hint
        obtain ⟨hinv', hatt⟩ := hinv.attachPlain hready (by simpa using hint)
        exact ⟨hinv', hrest.attaching hatt⟩

/-- Every section of an attach. -/
theorem Inv.attachSection (h : Inv cfg s) (hopen : s.side.Open) (hc : s.calls[i]? = some c) {ok : Bool}
    (hs : attachSection cfg s i c ok = some s') : Inv cfg s' ∧ Attaching cfg s s' i c := by
  -- A section that changes no more than `t` has of the state.
  have wait : ∀ {t : Index α} {d : AttachCall α} {point : AttachPoint}, Inv cfg t → Rests s t → t.calls = s.calls →
      (∀ e, c.point ≠ .done e) → Fit cfg d → d.point = c.point → point ≠ .done none →
      Inv cfg (t.stop i d point) ∧ Attaching cfg s (t.stop i d point) i c := by
    intro t d point hinv hrest hcalls hp hd hdp hpoint
    obtain ⟨hinv', hrest'⟩ := @Inv.stop _ _ _ _ _ d point hinv (hcalls ▸ hc) (hp none) fun _ =>
      hd.moved (hdp ▸ hp none)
    exact ⟨hinv', .inl ⟨hrest.trans hrest', stop_point hpoint⟩⟩
  have hfit : (∀ e, c.point ≠ .done e) → Fit cfg c := fun hp =>
    h.calls c (List.mem_of_getElem? hc) fun e => hp (some e)
  unfold Index.attachSection at hs
  cases hpt : c.point with
  | again =>
    rw [hpt] at hs
    cases hs
    exact h.attachAgain hopen hc (by simp [hpt])
  | objects oldCapacity =>
    rw [hpt] at hs
    cases hs
    have hp : ∀ e, c.point ≠ .done e := by simp [hpt]
    split
    · obtain ⟨k, hk⟩ := h.directory
      obtain ⟨hinv, hrest⟩ := h.direct (hk.publishSegment oldCapacity)
      exact wait hinv hrest rfl hp (hfit hp) rfl (by simp)
    · exact wait h .refl rfl hp (hfit hp) rfl (by simp)
  | maintenance =>
    rw [hpt] at hs
    cases hs
    have hp : ∀ e, c.point ≠ .done e := by simp [hpt]
    exact wait h .refl rfl hp (hfit hp) rfl (by split <;> simp)
  | side n reason =>
    rw [hpt] at hs
    cases hs
    have hp : ∀ e, c.point ≠ .done e := by simp [hpt]
    split
    · obtain ⟨hinv, hrest⟩ := h.resize (@SideIndex.Sound.publishForInsert _ _ _ _ n reason h.sound hopen).1
      exact wait hinv hrest rfl hp (hfit hp) rfl (by simp)
    · exact wait h .refl rfl hp (hfit hp) rfl (by simp)
  | table n generation =>
    rw [hpt] at hs
    cases hs
    have hp : ∀ e, c.point ≠ .done e := by simp [hpt]
    split
    · cases hpub : s.registry.publishTable n generation with
      | none =>
        obtain ⟨hinv, hrest⟩ := h.settle h.shared .refl
        exact wait hinv hrest rfl hp (hfit hp) rfl (by simp)
      | some r =>
        obtain ⟨hshared, hm⟩ := h.shared.publishTable hpub
        obtain ⟨hinv, hrest⟩ := h.settle hshared hm.extends
        exact wait hinv hrest rfl hp (hfit hp) rfl (by simp)
    · split
      · exact wait h .refl rfl hp (hfit hp) rfl (by simp)
      · exact wait h .refl rfl hp ((hfit hp).congr rfl rfl hpt.symm rfl (.inr rfl)) hpt.symm (by simp)
  | candidate =>
    rw [hpt] at hs
    cases hs
    have hp : ∀ e, c.point ≠ .done e := by simp [hpt]
    have hf := hfit hp
    split
    · refine wait h .refl rfl hp ⟨hf.some', hf.few, hf.perm, hf.sorted, fun hmode hlen => ?_, fun set hset => ?_⟩
        hpt.symm (by simp)
      · exact .inr ((hf.direct hmode hlen).resolve_left (hp none))
      · cases hset
        rfl
    · exact wait h .refl rfl hp hf rfl (by simp)
  | done e =>
    rw [hpt] at hs
    cases hs

end Sections

end Cachetag.Index
