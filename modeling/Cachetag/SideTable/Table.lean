import Cachetag.Lib.LinearProbe

/-! A side table of the index: open addressing over the pointers of the attached objects.

A live bucket holds a fingerprint of its object's hash and the slot of the object in the dense array
`objects`, which decides whose bucket it is. -/

namespace Cachetag
open LinearProbe

/-- The errors of the side tables' functions. -/
inductive SideErr where
  | eagain
  | ebusy
  | eexist
  | efault
  | einval
  | eoverflow
  | estale
deriving DecidableEq, Repr

/-- `struct cachetag_side_bucket`: the slot code 0, the slot code `UINT32_MAX`, or one more than a slot. -/
inductive SideBucket where
  | empty
  | tombstone
  | live (fingerprint slot : Nat)
deriving DecidableEq, Repr

/-- `TAG_SIDE_MAX_OBJECTS`: the slots from here on have no code. -/
def sideMaxObjects : Nat := 2 ^ 32 - 2

/-- `TAG_SIDE_DEFAULT_BUCKETS` -/
def sideDefaultBuckets : Nat := 64

/-- `TAG_SIDE_HARD_GROW_LOAD_NUMERATOR / TAG_SIDE_HARD_GROW_LOAD_DENOMINATOR` of a number of buckets. -/
def hardGrowLoad (buckets : Nat) : Nat := buckets * 7 / 10

/-- `SIZE_MAX` -/
def sizeMax : Nat := 2 ^ 64 - 1

/-- `cachetag_side_hash` and `cachetag_side_fingerprint`, of which nothing is assumed. -/
structure SideHash (α : Type*) where
  hash : α → Nat
  fingerprint : Nat → Nat

/-- The fingerprint that the bucket of an object holds. -/
def SideHash.mark {α : Type*} (H : SideHash α) (oc : α) : Nat := H.fingerprint (H.hash oc)

/-- `struct cachetag_side_table`; a table without buckets is one whose map is NULL. -/
structure SideTable where
  map : List SideBucket
  tombstones : Nat
  live : Nat
deriving DecidableEq, Repr

/-- What `cachetag_side_table_find_locked` reports: -1, 0, or 1 with a bucket and its slot. -/
inductive SideFind where
  | corrupt
  | absent
  | found (bucket slot : Nat)
deriving DecidableEq, Repr

namespace SideBucket

/-- `cachetag_side_slot_decode` -/
def slot? : SideBucket → Option Nat
  | .live _ slot => some slot
  | _ => none

@[simp] theorem slot?_live {f a : Nat} : (live f a).slot? = some a := rfl
@[simp] theorem slot?_empty : empty.slot? = none := rfl
@[simp] theorem slot?_tombstone : tombstone.slot? = none := rfl

end SideBucket

namespace SideTable

/-- `cachetag_side_table_clear` -/
def null : SideTable := ⟨[], 0, 0⟩

/-- The table over a map fresh from `calloc`. -/
def fresh (buckets : Nat) : SideTable := ⟨List.replicate buckets .empty, 0, 0⟩

def buckets (t : SideTable) : Nat := t.map.length

def bucket (t : SideTable) (i : Nat) : SideBucket := t.map.getD i .empty

/-- The number of live buckets. -/
def lives (t : SideTable) : Nat := t.map.countP fun b => b.slot?.isSome

/-- The number of tombstones. -/
def tombs (t : SideTable) : Nat := t.map.count .tombstone

/-- The number of EMPTY buckets. -/
def empties (t : SideTable) : Nat := t.map.count .empty

section Code
variable {α : Type*} [DecidableEq α]

def home (H : SideHash α) (t : SideTable) (oc : α) : Nat := H.hash oc &&& (t.buckets - 1)

/-- One turn of the loop of `cachetag_side_table_find_locked`. -/
def findVisit (H : SideHash α) (objects : List α) (oc : α) : Unit → Nat → SideBucket → Unit ⊕ SideFind
  | (), at', b =>
    match b with
    | .empty => .inr .absent
    | .tombstone => .inl ()
    | .live fingerprint slot =>
      if fingerprint = H.mark oc then
        match objects[slot]? with
        | none => .inr .corrupt
        | some ent => if ent = oc then .inr (.found at' slot) else .inl ()
      else .inl ()

/-- `cachetag_side_table_find_locked` -/
def find (H : SideHash α) (objects : List α) (t : SideTable) (oc : α) : SideFind :=
  if t.buckets = 0 then .absent
  else if t.buckets &&& (t.buckets - 1) ≠ 0 then .corrupt
  else (walk t.bucket t.buckets (findVisit H objects oc) t.buckets (t.home H oc) ()).getD .corrupt

/-- One turn of the loop of `cachetag_side_table_insert_locked`. The accumulator is `first_tomb`. -/
def insertVisit (H : SideHash α) (objects : List α) (oc : α) (firstTomb : Option Nat) (at' : Nat) (b : SideBucket) :
    Option Nat ⊕ Except SideErr Nat :=
  match b with
  | .empty => .inr (.ok (firstTomb.getD at'))
  | .tombstone => .inl (firstTomb.or (some at'))
  | .live fingerprint slot =>
    if fingerprint = H.mark oc then
      match objects[slot]? with
      | none => .inr (.error .efault)
      | some ent => if ent = oc then .inr (.error .eexist) else .inl firstTomb
    else .inl firstTomb

/-- The stores of an insert at a bucket. -/
def fill (t : SideTable) (i fingerprint slot : Nat) : SideTable where
  map := t.map.set i (.live fingerprint slot)
  tombstones := if t.bucket i = .tombstone then t.tombstones - 1 else t.tombstones
  live := t.live + 1

/-- `cachetag_side_table_insert_locked` -/
def insert (H : SideHash α) (objects : List α) (t : SideTable) (oc : α) (slot : Nat) : Except SideErr SideTable :=
  if t.buckets = 0 then .error .efault
  else if sideMaxObjects ≤ slot then .error .eoverflow
  else
    match walk t.bucket t.buckets (insertVisit H objects oc) t.buckets (t.home H oc) none with
    | none => .error .efault
    | some (.error r) => .error r
    | some (.ok i) => .ok (t.fill i (H.mark oc) slot)

end Code

/-- `cachetag_side_table_tombstone_locked` -/
def bury (t : SideTable) (i : Nat) : SideTable where
  map := t.map.set i .tombstone
  tombstones := t.tombstones + 1
  live := t.live - 1

/-- A store to the slot code of a live bucket. -/
def reslot (t : SideTable) (i slot : Nat) : SideTable :=
  match t.bucket i with
  | .live fingerprint _ => { t with map := t.map.set i (.live fingerprint slot) }
  | _ => t

/-- The load up to which `cachetag_side_prepare_insert_locked` admits one more object. -/
def UnderHardLoad (t : SideTable) : Prop := t.live + t.tombstones + 1 ≤ hardGrowLoad t.buckets

instance (t : SideTable) : Decidable t.UnderHardLoad := inferInstanceAs (Decidable (_ ≤ _))

/-! ### Buckets and slots -/

section Buckets
variable {t : SideTable} {i j n f a : Nat} {b : SideBucket}

@[simp] theorem buckets_fresh : (fresh n).buckets = n := by simp [fresh, buckets]

@[simp] theorem bucket_fresh : (fresh n).bucket i = .empty := by
  by_cases h : i < n <;> simp [fresh, bucket, List.getD_eq_getElem?_getD, h]

@[simp] theorem lives_fresh : (fresh n).lives = 0 := by simp [fresh, lives]

@[simp] theorem tombs_fresh : (fresh n).tombs = 0 := by simp [fresh, tombs, List.count_replicate]

@[simp] theorem empties_fresh : (fresh n).empties = n := by simp [fresh, empties]

@[simp] theorem buckets_null : null.buckets = 0 := rfl

@[simp] theorem bucket_null : null.bucket i = .empty := rfl

theorem bucket_eq_getElem (hi : i < t.map.length) : t.bucket i = t.map[i] := by
  rw [bucket, List.getD_eq_getElem?_getD, List.getElem?_eq_getElem hi]
  rfl

theorem lt_buckets (h : t.bucket i ≠ .empty) : i < t.buckets := by
  by_contra hge
  refine h ?_
  rw [bucket, List.getD_eq_getElem?_getD, List.getElem?_eq_none (Nat.le_of_not_lt hge)]
  rfl

theorem bucket_set (hi : i < t.buckets) {x y : Nat} :
    (⟨t.map.set i b, x, y⟩ : SideTable).bucket j = if j = i then b else t.bucket j := by
  unfold buckets at hi
  by_cases h : j = i
  · subst h
    simp [bucket, List.getD_eq_getElem?_getD, hi]
  · simp [bucket, List.getD_eq_getElem?_getD, h, Ne.symm h]

theorem empties_pos : 0 < t.empties ↔ ∃ i < t.buckets, t.bucket i = .empty := by
  rw [empties, List.count_pos_iff, List.mem_iff_getElem]
  constructor
  · rintro ⟨i, hi, h⟩
    exact ⟨i, hi, (bucket_eq_getElem hi).trans h⟩
  · rintro ⟨i, hi, h⟩
    exact ⟨i, hi, (bucket_eq_getElem hi).symm.trans h⟩

theorem empties_set (hi : i < t.buckets) {x y : Nat} :
    (⟨t.map.set i b, x, y⟩ : SideTable).empties =
      t.empties - (if t.bucket i = .empty then 1 else 0) + (if b = .empty then 1 else 0) := by
  rw [bucket_eq_getElem hi]
  simp only [empties, List.count_set hi, beq_iff_eq]

theorem tombs_set (hi : i < t.buckets) {x y : Nat} :
    (⟨t.map.set i b, x, y⟩ : SideTable).tombs =
      t.tombs - (if t.bucket i = .tombstone then 1 else 0) + (if b = .tombstone then 1 else 0) := by
  rw [bucket_eq_getElem hi]
  simp only [tombs, List.count_set hi, beq_iff_eq]

theorem lives_set (hi : i < t.buckets) {x y : Nat} :
    (⟨t.map.set i b, x, y⟩ : SideTable).lives =
      t.lives - (if (t.bucket i).slot?.isSome then 1 else 0) + (if b.slot?.isSome then 1 else 0) := by
  rw [bucket_eq_getElem hi]
  simp only [lives, List.countP_set hi]

theorem lives_pos (h : t.bucket i = .live f a) : 0 < t.lives := by
  have hi : i < t.buckets := lt_buckets (by rw [h]; simp)
  refine List.countP_pos_iff.mpr ⟨t.bucket i, ?_, by rw [h]; rfl⟩
  rw [bucket_eq_getElem hi]
  exact List.getElem_mem hi

theorem exists_live (h : 0 < t.lives) : ∃ i f a, t.bucket i = .live f a := by
  obtain ⟨b, hb, hlive⟩ := List.countP_pos_iff.mp h
  obtain ⟨i, hi, rfl⟩ := List.mem_iff_getElem.mp hb
  rw [← bucket_eq_getElem hi] at hlive
  cases hbi : t.bucket i with
  | live f a => exact ⟨i, f, a, hbi⟩
  | empty => rw [hbi] at hlive; cases hlive
  | tombstone => rw [hbi] at hlive; cases hlive

/-- Every bucket is of one of the three kinds. -/
theorem kinds : t.empties + t.tombs + t.lives = t.buckets := by
  unfold empties tombs lives buckets
  induction t.map with
  | nil => rfl
  | cons b l ih =>
    cases b <;> simp [List.countP_cons] <;> omega

end Buckets

/-! ### Stores -/

section Stores
variable {t : SideTable} {i j f a c : Nat}

@[simp] theorem buckets_fill : (t.fill i f a).buckets = t.buckets := by simp [fill, buckets]

@[simp] theorem buckets_bury : (t.bury i).buckets = t.buckets := by simp [bury, buckets]

@[simp] theorem live_fill : (t.fill i f a).live = t.live + 1 := rfl

@[simp] theorem live_bury : (t.bury i).live = t.live - 1 := rfl

theorem bucket_fill (hi : i < t.buckets) : (t.fill i f a).bucket j = if j = i then .live f a else t.bucket j :=
  bucket_set hi

theorem bucket_bury (hi : i < t.buckets) : (t.bury i).bucket j = if j = i then .tombstone else t.bucket j :=
  bucket_set hi

theorem empties_fill (hi : i < t.buckets) :
    (t.fill i f a).empties = t.empties - if t.bucket i = .empty then 1 else 0 :=
  empties_set hi

theorem lt_of_live (h : t.bucket i = .live f a) : i < t.buckets := lt_buckets (by rw [h]; simp)

theorem empties_bury (h : t.bucket i = .live f a) : (t.bury i).empties = t.empties := by
  rw [bury, empties_set (lt_of_live h), h]
  simp

theorem reslot_eq (h : t.bucket i = .live f c) : t.reslot i a = { t with map := t.map.set i (.live f a) } := by
  rw [reslot, h]

theorem bucket_reslot (h : t.bucket i = .live f c) :
    (t.reslot i a).bucket j = if j = i then .live f a else t.bucket j := by
  rw [reslot_eq h]
  exact bucket_set (lt_of_live h)

theorem buckets_reslot (h : t.bucket i = .live f c) : (t.reslot i a).buckets = t.buckets := by
  simp [reslot_eq h, buckets]

theorem live_reslot (h : t.bucket i = .live f c) : (t.reslot i a).live = t.live := by
  rw [reslot_eq h]

theorem empties_reslot (h : t.bucket i = .live f c) : (t.reslot i a).empties = t.empties := by
  rw [reslot_eq h, empties_set (lt_of_live h), h]
  simp

/-- The counts of a table are those of its map, which has a power-of-two size or is NULL. -/
structure Intact (t : SideTable) : Prop where
  live : t.live = t.lives
  tombstones : t.tombstones = t.tombs
  pow : t.buckets ≠ 0 → PowTwo t.buckets

theorem Intact.null : Intact .null := ⟨rfl, rfl, fun h => absurd rfl h⟩

theorem Intact.fresh {n : Nat} (hn : PowTwo n) : Intact (.fresh n) where
  live := lives_fresh.symm
  tombstones := tombs_fresh.symm
  pow _ := by simpa using hn

theorem Intact.fill (h : t.Intact) (hi : i < t.buckets) (hfree : t.bucket i = .tombstone ∨ t.bucket i = .empty) :
    (t.fill i f a).Intact where
  live := by
    rw [SideTable.fill, lives_set hi, ← h.live]
    rcases hfree with hb | hb <;> simp [hb]
  tombstones := by
    rw [SideTable.fill, tombs_set hi, ← h.tombstones]
    rcases hfree with hb | hb <;> simp [hb]
  pow := by simpa using h.pow

theorem Intact.bury (h : t.Intact) (hb : t.bucket i = .live f a) : (t.bury i).Intact where
  live := by
    rw [SideTable.bury, lives_set (lt_of_live hb), ← h.live, hb]
    simp
  tombstones := by
    rw [SideTable.bury, tombs_set (lt_of_live hb), ← h.tombstones, hb]
    simp
  pow := by simpa using h.pow

theorem Intact.reslot (h : t.Intact) (hb : t.bucket i = .live f c) : (t.reslot i a).Intact where
  live := by
    have hpos : 0 < t.live := by
      rw [h.live]
      exact lives_pos hb
    rw [reslot_eq hb, lives_set (lt_of_live hb), ← h.live, hb]
    simp
    omega
  tombstones := by
    rw [reslot_eq hb, tombs_set (lt_of_live hb), ← h.tombstones, hb]
    simp
  pow := by
    rw [buckets_reslot hb]
    exact h.pow

theorem Intact.kinds (h : t.Intact) : t.empties + t.tombstones + t.live = t.buckets := by
  rw [h.tombstones, h.live]
  exact SideTable.kinds

theorem Intact.live_pos (h : t.Intact) (hb : t.bucket i = .live f a) : 0 < t.live := by
  rw [h.live]
  exact lives_pos hb

end Stores

/-! ### Probes -/

section Probes
variable {α : Type*} {H : SideHash α} {objects : List α} {t : SideTable} {oc : α} {i a : Nat}

/-- The probe for an object comes to a bucket before it meets an EMPTY one. -/
def Path (H : SideHash α) (t : SideTable) (oc : α) (i : Nat) : Prop :=
  PathTo t.bucket (· = .empty) t.buckets (t.home H oc) i

theorem Path.congr {t' : SideTable} (hp : Path H t oc i) (hb : t'.buckets = t.buckets)
    (keep : ∀ q, t.bucket q ≠ .empty → t'.bucket q ≠ .empty) : Path H t' oc i := by
  unfold Path home at hp ⊢
  rw [hb]
  exact hp.of_nonempty _ keep

/-- The probe for an object meets a tombstone before it meets an EMPTY bucket. -/
def TombOnPath (H : SideHash α) (t : SideTable) (oc : α) : Prop :=
  ∃ d < t.buckets, t.bucket (cyc t.buckets (t.home H oc) d) = .tombstone ∧
    ∀ e < d, t.bucket (cyc t.buckets (t.home H oc) e) ≠ .empty

instance : Decidable (TombOnPath H t oc) :=
  inferInstanceAs (Decidable (∃ d < t.buckets, _ ∧ ∀ e < d, _))

/-- No live bucket belongs to an object. -/
def Lacks (objects : List α) (t : SideTable) (oc : α) : Prop :=
  ∀ i f a, t.bucket i = .live f a → objects[a]? ≠ some oc

/-- A table on which every probe ends with an answer. -/
structure Scannable (objects : List α) (t : SideTable) : Prop where
  pow : PowTwo t.buckets
  room : 0 < t.empties
  slots : ∀ i f a, t.bucket i = .live f a → a < objects.length

/-- The buckets at which the two loops end. -/
def Stops (H : SideHash α) (objects : List α) (oc : α) (b : SideBucket) : Prop :=
  b = .empty ∨ ∃ a, b = .live (H.mark oc) a ∧ ∀ ent, objects[a]? = some ent → ent = oc

theorem Scannable.home_lt (h : Scannable objects t) (H : SideHash α) (oc : α) : t.home H oc < t.buckets := by
  rw [home, and_mask h.pow]
  exact Nat.mod_lt _ h.pow.pos

/-- The way of a probe to the first bucket that stops it. -/
theorem Scannable.first_stop (h : Scannable objects t) (H : SideHash α) (oc : α) :
    ∃ d < t.buckets, Stops H objects oc (t.bucket (cyc t.buckets (t.home H oc) d)) := by
  obtain ⟨i, hi, hempty⟩ := empties_pos.mp h.room
  obtain ⟨d, hd, rfl⟩ := exists_cyc h.pow (h.home_lt H oc) hi
  exact ⟨d, hd, .inl hempty⟩

theorem Scannable.mask (h : Scannable objects t) : t.buckets &&& (t.buckets - 1) = 0 := by
  rw [and_mask h.pow, Nat.mod_self]

theorem Scannable.stops_empty (h : Scannable objects t) (hno : Lacks objects t oc) {q : Nat}
    (hq : Stops H objects oc (t.bucket q)) : t.bucket q = .empty := by
  rcases hq with hempty | ⟨c, hc, hall⟩
  · exact hempty
  · have hsome := List.getElem?_eq_getElem (h.slots q _ c hc)
    exact absurd (hall _ hsome ▸ hsome) (hno q _ c hc)

variable [DecidableEq α]

theorem findVisit_stops : StopsOn (findVisit H objects oc) fun _ b => Stops H objects oc b := by
  rintro ⟨⟩ p b
  cases b with
  | empty => simp [findVisit, Stops]
  | tombstone => simp [findVisit, Stops]
  | live f a =>
    by_cases hf : f = H.mark oc
    · cases ho : objects[a]? with
      | none => simp [findVisit, Stops, hf, ho]
      | some ent =>
        by_cases he : ent = oc <;> simp [findVisit, Stops, hf, ho, he]
    · simp [findVisit, Stops, hf]

theorem insertVisit_stops : StopsOn (insertVisit H objects oc) fun _ b => Stops H objects oc b := by
  intro tomb p b
  cases b with
  | empty => simp [insertVisit, Stops]
  | tombstone => simp [insertVisit, Stops]
  | live f a =>
    by_cases hf : f = H.mark oc
    · cases ho : objects[a]? with
      | none => simp [insertVisit, Stops, hf, ho]
      | some ent =>
        by_cases he : ent = oc <;> simp [insertVisit, Stops, hf, ho, he]
    · simp [insertVisit, Stops, hf]

theorem Scannable.find_found (h : Scannable objects t) (hb : t.bucket i = .live (H.mark oc) a)
    (ha : objects[a]? = some oc) (hp : Path H t oc i)
    (huniq : ∀ j f c, t.bucket j = .live f c → objects[c]? = some oc → j = i) : find H objects t oc = .found i a := by
  obtain ⟨d, hd, hdec⟩ := h.first_stop H oc
  obtain ⟨d', -, hbefore, hat, r, hr, hw⟩ :=
    @walk_first _ _ _ _ _ _ _ () h.pow _ findVisit_stops (h.home_lt H oc) _ hd hdec
  have hi : cyc t.buckets (t.home H oc) d' = i := by
    refine @PathTo.stops_at _ _ _ _ _ _ hp (fun _ b => Stops H objects oc b) _ (fun q hq => ?_) hbefore hat
      (.inr ⟨a, hb, by simp [ha]⟩)
    rcases hq with hempty | ⟨c, hc, hall⟩
    · exact .inl hempty
    · have hsome := List.getElem?_eq_getElem (h.slots q _ c hc)
      exact .inr (huniq q _ c hc (hall _ hsome ▸ hsome))
  rw [hi, hb] at hr
  simp only [findVisit, if_true, ha] at hr
  cases hr
  rw [find, if_neg h.pow.pos.ne', if_neg (by simp [h.mask]), hw]
  rfl

variable (H) in
theorem Scannable.find_absent (h : Scannable objects t) (hno : Lacks objects t oc) :
    find H objects t oc = .absent := by
  obtain ⟨d, hd, hdec⟩ := h.first_stop H oc
  obtain ⟨d', -, -, hat, r, hr, hw⟩ := @walk_first _ _ _ _ _ _ _ () h.pow _ findVisit_stops (h.home_lt H oc) _ hd hdec
  rw [h.stops_empty hno hat] at hr
  cases hr
  rw [find, if_neg h.pow.pos.ne', if_neg (by simp [h.mask]), hw]
  rfl

/-- `first_tomb` along the way of a probe: the first tombstone on it, if there is one. -/
theorem firstTomb_spec {n p d : Nat} {get : Nat → SideBucket}
    (hgo : ∀ e < d, ¬Stops H objects oc (get (cyc n p e))) :
    match accAt get n (insertVisit H objects oc) p none d with
    | none => ∀ e < d, get (cyc n p e) ≠ .tombstone
    | some q => ∃ e < d, q = cyc n p e ∧ get q = .tombstone := by
  induction d with
  | zero =>
    intro e he
    omega
  | succ d ih =>
    have ih := ih fun e he => hgo e (by omega)
    have hgo := hgo d (by omega)
    cases hacc : accAt get n (insertVisit H objects oc) p none d with
    | some q =>
      rw [hacc] at ih
      obtain ⟨e, he, hq⟩ := ih
      -- The accumulator keeps the first tombstone.
      have hkeep : accAt get n (insertVisit H objects oc) p none (d + 1) = some q := by
        rw [accAt, hacc]
        unfold insertVisit
        grind [Stops]
      rw [hkeep]
      exact ⟨e, by omega, hq⟩
    | none =>
      rw [hacc] at ih
      by_cases htomb : get (cyc n p d) = .tombstone
      · have hset : accAt get n (insertVisit H objects oc) p none (d + 1) = some (cyc n p d) := by
          rw [accAt, hacc, htomb]
          rfl
        rw [hset]
        exact ⟨d, by omega, rfl, htomb⟩
      · have hkeep : accAt get n (insertVisit H objects oc) p none (d + 1) = none := by
          rw [accAt, hacc]
          unfold insertVisit
          grind [Stops]
        rw [hkeep]
        intro e he
        rcases Nat.lt_succ_iff_lt_or_eq.mp he with hlt | rfl
        · exact ih e hlt
        · exact htomb

/-- An insert of an object that the table lacks takes the first tombstone on its way, or else the EMPTY
    bucket at its end. -/
theorem Scannable.insert_ok (h : Scannable objects t) (H : SideHash α) {slot : Nat} (hslot : slot < sideMaxObjects)
    (hno : Lacks objects t oc) : ∃ i < t.buckets, insert H objects t oc slot = .ok (t.fill i (H.mark oc) slot) ∧
      Path H t oc i ∧ (t.bucket i = .tombstone ∨ t.bucket i = .empty ∧ ¬TombOnPath H t oc) := by
  obtain ⟨d, hd, hdec⟩ := h.first_stop H oc
  obtain ⟨d', hle, hbefore, hat, r, hr, hw⟩ :=
    @walk_first _ _ _ _ _ _ _ none h.pow _ insertVisit_stops (h.home_lt H oc) _ hd hdec
  have hend := h.stops_empty hno hat
  have hway : ∀ e < d', t.bucket (cyc t.buckets (t.home H oc) e) ≠ .empty :=
    fun e he hempty => hbefore e he (.inl hempty)
  have htomb := firstTomb_spec hbefore
  have hins : ∀ i, walk t.bucket t.buckets (insertVisit H objects oc) t.buckets (t.home H oc) none = some (.ok i) →
      insert H objects t oc slot = .ok (t.fill i (H.mark oc) slot) := by
    intro i hi
    rw [insert, if_neg h.pow.pos.ne', if_neg (Nat.not_le.mpr hslot), hi]
  rw [hend] at hr
  cases hacc : accAt t.bucket t.buckets (insertVisit H objects oc) (t.home H oc) none d' with
  | none =>
    rw [hacc] at hr htomb
    cases hr
    refine ⟨_, cyc_lt h.pow, hins _ hw, PathTo.of_walk (by omega) (Nat.le_refl _) hway, .inr ⟨hend, ?_⟩⟩
    rintro ⟨e, -, htombE, hwayE⟩
    rcases Nat.lt_trichotomy e d' with hlt | rfl | hlt
    · exact htomb e hlt htombE
    · rw [hend] at htombE
      cases htombE
    · exact hwayE d' hlt hend
  | some q =>
    rw [hacc] at hr htomb
    cases hr
    obtain ⟨e, he, rfl, hq⟩ := htomb
    exact ⟨_, cyc_lt h.pow, hins _ hw, PathTo.of_walk (by omega) (Nat.le_of_lt he) hway, .inl hq⟩

end Probes
end SideTable
end Cachetag
