import Cachetag.Fellow.Attr

/-! What the two callbacks of the attribute make together: the envelope of the records of the namespaces that have
    tags for the object, of the length that was announced. A visit finds in it what the pending registrations say. -/

namespace Cachetag.Fellow
open Buffer LittleEndian Purgemap

/-- The record of a registration. -/
def Pending.record (d : Digest) (tp : Pending) : Record := ⟨d, tp.regSeq, tp.keys.map Key.fold⟩

def Namespace.record (oc : Nat) (ns : Namespace) : Option Record := (ns.registered oc).map (·.record ns.digest)

/-- The records that go into the attribute of an object. -/
def records (oc : Nat) (nss : List Namespace) : List Record := nss.filterMap (Namespace.record oc)

/-- A namespace behind the size callback. -/
def Namespace.sized (oc : Nat) (ns : Namespace) : Namespace :=
  if (ns.registered oc).isSome then ns.write oc (fun tp => { tp with recordLen := tp.len, included := false }) else ns

/-- A namespace behind the fill callback. -/
def Namespace.filled (oc : Nat) (ns : Namespace) : Namespace :=
  if (ns.registered oc).isSome then ns.write oc (fun tp => { tp with included := true }) else ns

/-! ### Registrations -/

section Registered
variable {oc : Nat} {inc : Bool} {f : Pending → Pending} {l : List Pending} {ns : Namespace} {tp : Pending} {d : Digest}
  {nss : List Namespace}

theorem find_write (hf : ∀ tp, (f tp).isFor oc inc = tp.isFor oc inc) :
    findPending (writePending oc inc f l) oc inc = (findPending l oc inc).map f := by
  unfold findPending
  induction l with
  | nil => rfl
  | cons tp tps ih =>
    rw [writePending]
    by_cases hfor : tp.isFor oc inc = true
    · rw [if_pos hfor, List.find?_cons_of_pos (by rw [hf]; exact hfor), List.find?_cons_of_pos hfor, Option.map_some]
    · rw [if_neg hfor, List.find?_cons_of_neg hfor, List.find?_cons_of_neg hfor, ih]

theorem registered_write (hf : ∀ tp, (f tp).isFor oc true = tp.isFor oc true) (hkeys : ∀ tp, (f tp).keys = tp.keys) :
    (ns.write oc f).registered oc = (ns.registered oc).map f := by
  unfold Namespace.registered Namespace.write
  by_cases hact : ns.fellowDirectActive ∧ ns.persist
  · rw [if_pos hact, if_pos hact, find_write hf]
    cases findPending ns.pending oc true with
    | none => rfl
    | some tp => by_cases hnil : tp.keys = [] <;> simp [Option.filter, hkeys, hnil]
  · rw [if_neg hact, if_neg hact]
    rfl

theorem registered_sized :
    (ns.sized oc).registered oc = (ns.registered oc).map fun tp => { tp with recordLen := tp.len, included := false } := by
  unfold Namespace.sized
  cases hreg : ns.registered oc with
  | none => rw [if_neg (by decide), hreg, Option.map_none]
  | some tp =>
    rw [if_pos Option.isSome_some, ← hreg]
    exact registered_write (fun _ => rfl) fun _ => rfl

theorem registered_filled :
    (ns.filled oc).registered oc = (ns.registered oc).map fun tp => { tp with included := true } := by
  unfold Namespace.filled
  cases hreg : ns.registered oc with
  | none => rw [if_neg (by decide), hreg, Option.map_none]
  | some tp =>
    rw [if_pos Option.isSome_some, ← hreg]
    exact registered_write (fun _ => rfl) fun _ => rfl

theorem registered_tagged (h : ns.registered oc = some tp) : tp.keys ≠ [] := by
  unfold Namespace.registered at h
  split at h
  · have hkeys := (Option.filter_eq_some_iff.mp h).2
    simpa using hkeys
  · cases h

theorem records_cons_none (h : ns.registered oc = none) : records oc (ns :: nss) = records oc nss := by
  rw [records, List.filterMap_cons_none (by rw [Namespace.record, h, Option.map_none]), records]

theorem records_cons_some (h : ns.registered oc = some tp) :
    records oc (ns :: nss) = tp.record ns.digest :: records oc nss := by
  rw [records, List.filterMap_cons_some (by rw [Namespace.record, h, Option.map_some]), records]

theorem record_sized : (ns.sized oc).record oc = ns.record oc := by
  have hdigest : (ns.sized oc).digest = ns.digest := by
    unfold Namespace.sized
    split <;> rfl
  rw [Namespace.record, registered_sized, Namespace.record, hdigest, Option.map_map]
  rfl

theorem records_sized : records oc (nss.map (Namespace.sized oc)) = records oc nss := by
  rw [records, List.filterMap_map, records]
  exact List.filterMap_congr fun ns _ => record_sized

theorem record_len : (tp.record d).len = tp.len := by
  rw [Record.len, Pending.record, List.length_map, Pending.len]

theorem length_folds : (tp.record d).folds.length = tp.keys.length := List.length_map _

end Registered

/-! ### The size -/

/-- What the loop of the size callback adds to its variables, and finds of the namespaces. -/
structure Sizes (oc : Nat) (nss : List Namespace) (z z' : Sizing) (nss' : List Namespace) : Prop where
  seen : z'.seen = z.seen ++ (records oc nss).map (·.digest)
  distinct : z.seen.Nodup → z'.seen.Nodup
  total : z'.total = z.total + ((records oc nss).map Record.len).sum
  fits : z.total ≤ u32Max → z'.total ≤ u32Max
  count : z.seen.length ≤ u16Max → z'.seen.length ≤ u16Max
  agree : ∀ ns ∈ nss, ∀ tp, ns.registered oc = some tp → ∀ k ∈ tp.keys, k.regSeq = tp.regSeq
  few : ∀ r ∈ records oc nss, r.folds.length ≤ u16Max
  compact : z'.compactSingleton = true ↔
    (records oc nss = [] ∧ z.compactSingleton = true) ∨ (z.seen = [] ∧ ∃ r, records oc nss = [r] ∧ r.folds.length = 1)
  left : nss' = nss.map (Namespace.sized oc)

/-- The variables after the turn of a namespace that has `tp` registered. -/
def Sizing.turn (z : Sizing) (d : Digest) (tp : Pending) : Sizing :=
  ⟨z.seen ++ [d], z.total + tp.len, if z.seen = [] then tp.keys.length = 1 else false⟩

/-- The checks that the turn of a namespace makes. -/
structure Fits (z : Sizing) (d : Digest) (tp : Pending) : Prop where
  fresh : d ∉ z.seen
  agree : ∀ k ∈ tp.keys, k.regSeq = tp.regSeq
  few : tp.keys.length ≤ u16Max
  total : z.total + tp.len ≤ u32Max
  count : z.seen.length ≠ u16Max

section Size
variable {oc : Nat} {alloc : Nat → Bool} {ns : Namespace} {nss nss' : List Namespace} {tp : Pending} {z z' : Sizing} {L : Nat}

/-- A turn for a namespace that has something registered made all of the checks. -/
theorem sizeNamespaces_some (hreg : ns.registered oc = some tp)
    (h : sizeNamespaces oc alloc (ns :: nss) z = (.ok z', nss')) :
    Fits z ns.digest tp ∧ ∃ rest, sizeNamespaces oc alloc nss (z.turn ns.digest tp) = (.ok z', rest) ∧
      nss' = ns.sized oc :: rest := by
  rw [sizeNamespaces, hreg] at h
  dsimp only at h
  by_cases hseen : ns.digest ∈ z.seen
  · rw [if_pos hseen] at h
    cases h
  rw [if_neg hseen] at h
  by_cases hdiffer : (tp.keys.any fun k => k.regSeq ≠ tp.regSeq) = true
  · rw [if_pos hdiffer] at h
    cases h
  rw [if_neg hdiffer] at h
  by_cases hmany : tp.keys.length > u16Max ∨ tp.keys.length > (Purgemap.sizeMax - recordHeaderLen) / 8
  · rw [if_pos hmany] at h
    cases h
  rw [if_neg hmany] at h
  by_cases hlong : tp.len > u32Max ∨ z.total > u32Max - tp.len ∨ z.seen.length = u16Max
  · rw [if_pos hlong] at h
    cases h
  rw [if_neg hlong] at h
  by_cases halloc : (!alloc z.seen.length) = true
  · rw [if_pos halloc] at h
    cases h
  rw [if_neg halloc] at h
  push Not at hmany hlong
  have hsized : ns.sized oc = ns.write oc fun tp => { tp with recordLen := tp.len, included := false } := by
    rw [Namespace.sized, hreg, if_pos Option.isSome_some]
  rcases hrun : sizeNamespaces oc alloc nss (z.turn ns.digest tp) with ⟨r, rest⟩
  rw [Sizing.turn] at hrun
  rw [hrun] at h
  cases h
  refine ⟨⟨hseen, fun k hk => ?_, hmany.1, by omega, hlong.2.2⟩, rest, rfl, by rw [hsized]⟩
  by_contra hne
  exact hdiffer (List.any_eq_true.mpr ⟨k, hk, decide_eq_true hne⟩)

theorem Sizes.nil : Sizes oc [] z z [] where
  seen := by simp [records]
  distinct := id
  total := by simp [records]
  fits := id
  count := id
  agree := by simp
  few := by simp [records]
  compact := by simp [records]
  left := rfl

/-- A namespace that has nothing registered changes nothing. -/
theorem Sizes.skip (h : Sizes oc nss z z' nss') (hreg : ns.registered oc = none) :
    Sizes oc (ns :: nss) z z' (ns :: nss') := by
  have hsized : ns.sized oc = ns := by rw [Namespace.sized, hreg, if_neg (by decide)]
  have hrecs : records oc (ns :: nss) = records oc nss := records_cons_none hreg
  exact
    { seen := by
        rw [hrecs]
        exact h.seen
      distinct := h.distinct
      total := by
        rw [hrecs]
        exact h.total
      fits := h.fits
      count := h.count
      agree := fun ns' hns' tp htp => by
        rcases List.mem_cons.mp hns' with rfl | hns'
        · rw [hreg] at htp
          cases htp
        · exact h.agree ns' hns' tp htp
      few := by
        rw [hrecs]
        exact h.few
      compact := by
        rw [hrecs]
        exact h.compact
      left := by rw [List.map_cons, hsized, h.left] }

/-- The compact form is for one record of one fold: the first turn decides for it, and every later one against it. -/
theorem Sizes.compact_turn (h : Sizes oc nss (z.turn ns.digest tp) z' nss') (hreg : ns.registered oc = some tp) :
    z'.compactSingleton = true ↔ z.seen = [] ∧ ∃ r, records oc (ns :: nss) = [r] ∧ r.folds.length = 1 := by
  have hne : (z.turn ns.digest tp).seen ≠ [] := by simp [Sizing.turn]
  rw [h.compact, records_cons_some hreg]
  constructor
  · rintro (⟨hnil, hone⟩ | ⟨hbad, -⟩)
    · by_cases hz : z.seen = []
      · rw [Sizing.turn, if_pos hz] at hone
        exact ⟨hz, _, by rw [hnil], by rw [length_folds]; exact of_decide_eq_true hone⟩
      · rw [Sizing.turn, if_neg hz] at hone
        cases hone
    · exact absurd hbad hne
  · rintro ⟨hz, r, hr, hone⟩
    obtain ⟨rfl, hnil⟩ := List.cons.inj hr
    rw [length_folds] at hone
    exact .inl ⟨hnil, by rw [Sizing.turn, if_pos hz]; exact decide_eq_true hone⟩

/-- The turn of a namespace that passes the checks, in front of those of the others. -/
theorem Sizes.cons (h : Sizes oc nss (z.turn ns.digest tp) z' nss') (hreg : ns.registered oc = some tp)
    (hfits : Fits z ns.digest tp) : Sizes oc (ns :: nss) z z' (ns.sized oc :: nss') := by
  have hrecs : records oc (ns :: nss) = tp.record ns.digest :: records oc nss := records_cons_some hreg
  have hseen : z'.seen = z.seen ++ [ns.digest] ++ (records oc nss).map (·.digest) := h.seen
  have htotal : z'.total = z.total + tp.len + ((records oc nss).map Record.len).sum := h.total
  exact
    { seen := by
        rw [hseen, hrecs, List.map_cons, List.append_assoc]
        rfl
      distinct := fun hnd => h.distinct (by
        refine List.nodup_append.mpr ⟨hnd, List.nodup_singleton _, fun x hx y hy heq => hfits.fresh ?_⟩
        rw [← List.mem_singleton.mp hy, ← heq]
        exact hx)
      total := by rw [htotal, hrecs, List.map_cons, List.sum_cons, record_len, Nat.add_assoc]
      fits := fun _ => h.fits hfits.total
      count := fun hle => h.count (by
        rw [Sizing.turn, List.length_append, List.length_singleton]
        exact Nat.lt_of_le_of_ne hle hfits.count)
      agree := fun ns' hns' tp' htp' => by
        rcases List.mem_cons.mp hns' with rfl | hns'
        · rw [hreg] at htp'
          cases htp'
          exact hfits.agree
        · exact h.agree ns' hns' tp' htp'
      few := fun r hr => by
        rw [hrecs] at hr
        rcases List.mem_cons.mp hr with rfl | hr
        · rw [length_folds]
          exact hfits.few
        · exact h.few r hr
      compact := by
        have hsome : records oc (ns :: nss) ≠ [] := by simp [hrecs]
        rw [h.compact_turn hreg]
        exact ⟨.inr, fun hc => hc.resolve_left fun hnil => hsome hnil.1⟩
      left := by rw [List.map_cons, h.left] }

theorem sizeNamespaces_spec (h : sizeNamespaces oc alloc nss z = (.ok z', nss')) : Sizes oc nss z z' nss' := by
  induction nss generalizing z z' nss' with
  | nil =>
    cases h
    exact .nil
  | cons ns nss ih =>
    cases hreg : ns.registered oc with
    | none =>
      rw [sizeNamespaces, hreg] at h
      dsimp only at h
      rcases hrun : sizeNamespaces oc alloc nss z with ⟨r, rest⟩
      rw [hrun] at h
      cases h
      exact (ih hrun).skip hreg
    | some tp =>
      obtain ⟨hfits, rest, hrun, rfl⟩ := sizeNamespaces_some hreg h
      exact (ih hrun).cons hreg hfits

end Size

/-! ### The bytes -/

/-- A namespace that the size callback has passed. -/
structure Ready (oc : Nat) (ns : Namespace) : Prop where
  len : ∀ tp, ns.registered oc = some tp → tp.recordLen = tp.len
  agree : ∀ tp, ns.registered oc = some tp → ∀ k ∈ tp.keys, k.regSeq = tp.regSeq

section Fill
variable {oc len count k written : Nat} {nss : List Namespace} {ns : Namespace} {tp : Pending} {pre b : List UInt8}
  {keys : List Key} {regSeq : UInt64} {d : Digest} {r : Record}

theorem fillKeys_eq (hseq : ∀ k ∈ keys, k.regSeq = regSeq) (hoff : pre.length = written) :
    fillKeys regSeq keys written (pre ++ zeros (keys.length * 8 + k)) =
      some (pre ++ words (keys.map Key.fold) ++ zeros k) := by
  induction keys generalizing pre written with
  | nil =>
    rw [fillKeys, List.length_nil, Nat.zero_mul, Nat.zero_add]
    simp [words]
  | cons key keys ih =>
    rw [fillKeys, if_pos (hseq key List.mem_cons_self), List.length_cons,
      show (keys.length + 1) * 8 + k = 8 + (keys.length * 8 + k) by omega, putWord_next hoff, Option.bind_eq_bind,
      Option.bind_some, ih (fun x hx => hseq x (List.mem_cons_of_mem _ hx))
        (by rw [List.length_append, length_word, hoff]), List.map_cons, words_cons]
    simp only [List.append_assoc]

/-- A field that is left as it is. -/
theorem zeros_skip : pre ++ zeros (2 + k) = pre ++ enc 2 0 ++ zeros k := by
  rw [zeros_add, List.append_assoc]
  rfl

theorem fillRecord_eq (hseq : ∀ k ∈ tp.keys, k.regSeq = tp.regSeq) (hoff : pre.length = written) :
    fillRecord d tp written (pre ++ zeros (tp.len + k)) = some (pre ++ (tp.record d).bytes ++ zeros k) := by
  have hlen : tp.len + k = 4 + (8 + (8 + (8 + (2 + (2 + (tp.keys.length * 8 + k)))))) := by
    rw [Pending.len, recordHeaderLen]
    omega
  have h4 : (pre ++ enc 4 tp.len).length = written + 4 := by rw [List.length_append, length_enc, hoff]
  have h12 : (pre ++ enc 4 tp.len ++ word d.hi).length = written + 12 := by rw [List.length_append, length_word, h4]
  have h20 : (pre ++ enc 4 tp.len ++ word d.hi ++ word d.lo).length = written + 20 := by
    rw [List.length_append, length_word, h12]
  have h28 : (pre ++ enc 4 tp.len ++ word d.hi ++ word d.lo ++ word tp.regSeq).length = written + 28 := by
    rw [List.length_append, length_word, h20]
  have h32 : (pre ++ enc 4 tp.len ++ word d.hi ++ word d.lo ++ word tp.regSeq ++ enc 2 tp.keys.length ++ enc 2 0).length =
      written + 32 := by
    rw [List.length_append, List.length_append, length_enc, length_enc, h28]
  rw [fillRecord, hlen]
  simp only [Option.bind_eq_bind]
  rw [putLE_next hoff, Option.bind_some, putWord_next h4, Option.bind_some, putWord_next h12, Option.bind_some,
    putWord_next h20, Option.bind_some, putLE_next h28, Option.bind_some, zeros_skip, fillKeys_eq hseq h32]
  rw [Record.bytes, record_len, length_folds]
  simp only [Pending.record, List.append_assoc]

/-- The loop writes the records one behind the other. -/
theorem fillNamespaces_eq (hready : ∀ ns ∈ nss, Ready oc ns) (hoff : pre.length = written)
    (hlen : written + ((records oc nss).map Record.len).sum ≤ len) :
    fillNamespaces oc len nss (pre ++ zeros (((records oc nss).map Record.len).sum + k)) written count =
      some (pre ++ (records oc nss).flatMap Record.bytes ++ zeros k,
        written + ((records oc nss).map Record.len).sum, count + (records oc nss).length,
        nss.map (Namespace.filled oc)) := by
  induction nss generalizing pre written count with
  | nil => simp [fillNamespaces, records]
  | cons ns nss ih =>
    have hready' : ∀ ns ∈ nss, Ready oc ns := fun x hx => hready x (List.mem_cons_of_mem _ hx)
    rw [fillNamespaces]
    cases hreg : ns.registered oc with
    | none =>
      have hrecs : records oc (ns :: nss) = records oc nss := records_cons_none hreg
      have hfilled : ns.filled oc = ns := by rw [Namespace.filled, hreg, if_neg (by decide)]
      rw [hrecs] at hlen ⊢
      rw [ih hready' hoff hlen, List.map_cons, hfilled]
      rfl
    | some tp =>
      have hrecs : records oc (ns :: nss) = tp.record ns.digest :: records oc nss := records_cons_some hreg
      have hfilled : ns.filled oc = ns.write oc fun tp => { tp with included := true } := by
        rw [Namespace.filled, hreg, if_pos Option.isSome_some]
      have hns := hready ns List.mem_cons_self
      rw [hrecs, List.map_cons, List.sum_cons, record_len] at hlen ⊢
      have hnext : (pre ++ (tp.record ns.digest).bytes).length = written + tp.len := by
        rw [List.length_append, Record.length_bytes, record_len, hoff]
      have hwritten : fillRecord ns.digest tp written
          (pre ++ zeros (tp.len + (((records oc nss).map Record.len).sum + k))) = some _ :=
        fillRecord_eq (hns.agree tp hreg) hoff
      rw [← Nat.add_assoc] at hwritten
      have hrest : fillNamespaces oc len nss (pre ++ (tp.record ns.digest).bytes ++
          zeros (((records oc nss).map Record.len).sum + k)) (written + tp.len) (count + 1) = some _ :=
        ih hready' hnext (by omega)
      dsimp only
      rw [if_pos ⟨hns.len tp hreg, by omega, by omega⟩, hwritten, Option.bind_eq_bind, Option.bind_some, hrest,
        Option.bind_eq_bind, Option.bind_some, List.map_cons, hfilled, List.flatMap_cons, List.length_cons,
        Nat.add_assoc written, Nat.add_assoc count, Nat.add_comm 1]
      simp only [List.append_assoc]

theorem countP_filled :
    (nss.map (Namespace.filled oc)).countP (fun ns => (ns.registered oc).isSome) = (records oc nss).length := by
  induction nss with
  | nil => rfl
  | cons ns nss ih =>
    have hfilled : (ns.filled oc).registered oc = _ := registered_filled
    cases hreg : ns.registered oc with
    | none =>
      rw [hreg, Option.map_none] at hfilled
      rw [List.map_cons, List.countP_cons_of_neg (by rw [hfilled]; decide), ih, records_cons_none hreg]
    | some tp =>
      rw [hreg, Option.map_some] at hfilled
      rw [List.map_cons, List.countP_cons_of_pos (by rw [hfilled]; rfl), ih, records_cons_some hreg, List.length_cons]

/-- The general layout is written where the length is that of the records. -/
theorem attrFill_general (hready : ∀ ns ∈ nss, Ready oc ns) (hl : Layout (records oc nss)) (hne : records oc nss ≠ [])
    (hlen : len = generalLen (records oc nss)) :
    attrFill oc len nss = some (general (records oc nss), nss.map (Namespace.filled oc)) := by
  have hne40 : len ≠ singletonLen := hlen ▸ generalLen_ne hl
  have hfits : envelopeHeaderLen ≤ len ∧ len ≤ u32Max := ⟨hlen ▸ Nat.le_add_right _ _, hlen ▸ hl.fits⟩
  have hzeros : zeros len = [] ++ zeros (4 + (2 + (2 + (4 + (2 + (2 + ((records oc nss).map Record.len).sum)))))) := by
    rw [hlen, generalLen, envelopeHeaderLen, List.nil_append]
    congr 1
    omega
  -- Each field is written behind the ones before it. The count is written last, over the zeros it left.
  have hmagic : putLE ([] ++ zeros (4 + (2 + (2 + (4 + (2 + (2 + ((records oc nss).map Record.len).sum)))))))
      0 4 envelopeMagic = some _ := putLE_next rfl
  have hversion : putLE ([] ++ enc 4 envelopeMagic ++
      zeros (2 + (2 + (4 + (2 + (2 + ((records oc nss).map Record.len).sum)))))) 4 2 envelopeVersionV1 = some _ :=
    putLE_next (by simp only [List.length_append, length_enc, List.length_nil])
  have htotal : putLE ([] ++ enc 4 envelopeMagic ++ enc 2 envelopeVersionV1 ++ enc 2 0 ++
      zeros (4 + (2 + (2 + ((records oc nss).map Record.len).sum)))) 8 4 len = some _ :=
    putLE_next (by simp only [List.length_append, length_enc, List.length_nil])
  have hrecords : fillNamespaces oc len nss (([] ++ enc 4 envelopeMagic ++ enc 2 envelopeVersionV1 ++ enc 2 0 ++
      enc 4 len ++ enc 2 0 ++ enc 2 0) ++ zeros (((records oc nss).map Record.len).sum + 0)) envelopeHeaderLen 0 = some _ :=
    fillNamespaces_eq hready (by simp only [List.length_append, length_enc, List.length_nil, envelopeHeaderLen])
      (by rw [hlen, generalLen])
  have hcount : putLE (([] ++ enc 4 envelopeMagic ++ enc 2 envelopeVersionV1 ++ enc 2 0 ++ enc 4 len) ++
      (enc 2 0 ++ (enc 2 0 ++ (records oc nss).flatMap Record.bytes))) 12 2 (records oc nss).length = some _ :=
    put_append (by rw [length_enc, length_enc])
  have hpos : 0 < (records oc nss).length := List.length_pos_of_ne_nil hne
  rw [attrFill, if_neg hne40, if_pos hfits, hzeros]
  simp only [Option.bind_eq_bind]
  rw [hmagic, Option.bind_some, hversion, Option.bind_some, zeros_skip, htotal, Option.bind_some, zeros_skip,
    zeros_skip]
  rw [Nat.add_zero] at hrecords
  rw [hrecords, Option.bind_some]
  dsimp only
  rw [if_pos ⟨by rw [hlen, generalLen], by omega, by have := hl.count; omega, by rw [countP_filled, Nat.zero_add]⟩]
  have hbuf : ([] ++ enc 4 envelopeMagic ++ enc 2 envelopeVersionV1 ++ enc 2 0 ++ enc 4 len ++ enc 2 0 ++ enc 2 0) ++
      (records oc nss).flatMap Record.bytes ++ zeros 0 = ([] ++ enc 4 envelopeMagic ++ enc 2 envelopeVersionV1 ++
      enc 2 0 ++ enc 4 len) ++ (enc 2 0 ++ (enc 2 0 ++ (records oc nss).flatMap Record.bytes)) := by
    rw [show zeros 0 = [] from rfl, List.append_nil]
    simp only [List.append_assoc]
  rw [hbuf, Nat.zero_add, hcount, Option.bind_some, general, header, ← hlen]
  simp only [List.nil_append, List.append_assoc]

/-- A loop over namespaces without registrations writes nothing. -/
theorem fillLone_nil (h : records oc nss = []) : fillLone oc nss b count = some (b, count, nss) := by
  induction nss with
  | nil => rfl
  | cons ns nss ih =>
    cases hreg : ns.registered oc with
    | none =>
      rw [records_cons_none hreg] at h
      rw [fillLone, hreg]
      dsimp only
      rw [ih h]
      rfl
    | some tp =>
      rw [records_cons_some hreg] at h
      cases h

theorem filled_nil (h : records oc nss = []) : nss.map (Namespace.filled oc) = nss := by
  induction nss with
  | nil => rfl
  | cons ns nss ih =>
    cases hreg : ns.registered oc with
    | none =>
      rw [records_cons_none hreg] at h
      rw [List.map_cons, ih h, Namespace.filled, hreg, if_neg (by decide)]
    | some tp =>
      rw [records_cons_some hreg] at h
      cases h

/-- What stands in front of the fields of a lone record. -/
def loneHeader : List UInt8 := enc 4 envelopeMagic ++ enc 2 envelopeVersionSingleton ++ enc 2 0

theorem fillLone_one {d : Digest} {regSeq fold : UInt64} (hready : ∀ ns ∈ nss, Ready oc ns)
    (h : records oc nss = [⟨d, regSeq, [fold]⟩]) :
    fillLone oc nss (loneHeader ++ zeros 32) 0 = some (compact d regSeq fold, 1, nss.map (Namespace.filled oc)) := by
  induction nss with
  | nil => cases h
  | cons ns nss ih =>
    cases hreg : ns.registered oc with
    -- A namespace without a registration is passed over.
    | none =>
      rw [records_cons_none hreg] at h
      have hfilled : ns.filled oc = ns := by rw [Namespace.filled, hreg, if_neg (by decide)]
      rw [fillLone, hreg]
      dsimp only
      rw [ih (fun x hx => hready x (List.mem_cons_of_mem _ hx)) h, List.map_cons, hfilled]
      rfl
    | some tp =>
      rw [records_cons_some hreg] at h
      obtain ⟨hrec, hnil⟩ := List.cons.inj h
      have hfilled : ns.filled oc = ns.write oc fun tp => { tp with included := true } := by
        rw [Namespace.filled, hreg, if_pos Option.isSome_some]
      have hlen := (hready ns List.mem_cons_self).len tp hreg
      simp only [Pending.record, Record.mk.injEq] at hrec
      obtain ⟨rfl, hseq, hfolds⟩ := hrec
      obtain ⟨k, hk, hfold⟩ : ∃ k, tp.keys = [k] ∧ k.fold = fold := by
        obtain ⟨k, ks, hkeys, hfold, hrest⟩ := List.map_eq_cons_iff.mp hfolds
        exact ⟨k, by rw [hkeys, List.map_eq_nil_iff.mp hrest], hfold⟩
      have hseq' : k.regSeq = regSeq := by rw [← hseq, Pending.regSeq, hk]; rfl
      -- The four words fill the 32 bytes behind the header one after the other.
      have h8 : putWord (loneHeader ++ zeros (8 + 24)) 8 ns.digest.hi = some _ := putWord_next rfl
      have h16 : putWord (loneHeader ++ word ns.digest.hi ++ zeros (8 + 16)) 16 ns.digest.lo = some _ :=
        putWord_next (by rw [List.length_append, length_word]; rfl)
      have h24 : putWord (loneHeader ++ word ns.digest.hi ++ word ns.digest.lo ++ zeros (8 + 8)) 24 k.regSeq = some _ :=
        putWord_next (by rw [List.length_append, List.length_append, length_word, length_word]; rfl)
      have h32 : putWord (loneHeader ++ word ns.digest.hi ++ word ns.digest.lo ++ word k.regSeq ++ zeros (8 + 0)) 32
          k.fold = some _ :=
        putWord_next (by simp only [List.length_append, length_word]; rfl)
      rw [Pending.len, hk] at hlen
      rw [fillLone, hreg]
      dsimp only
      rw [hk]
      dsimp only
      rw [if_pos ⟨rfl, hlen⟩]
      simp only [Option.bind_eq_bind]
      rw [h8, Option.bind_some, h16, Option.bind_some, h24, Option.bind_some, h32, Option.bind_some,
        fillLone_nil hnil, Option.bind_some, List.map_cons, hfilled, filled_nil hnil, hseq', hfold]
      simp only [compact, loneHeader, List.append_assoc, show zeros 0 = [] from rfl, List.append_nil]

/-- The compact layout is written for a lone fold. -/
theorem attrFill_compact {d : Digest} {regSeq fold : UInt64} (hready : ∀ ns ∈ nss, Ready oc ns)
    (h : records oc nss = [⟨d, regSeq, [fold]⟩]) :
    attrFill oc singletonLen nss = some (compact d regSeq fold, nss.map (Namespace.filled oc)) := by
  have hmagic : putLE ([] ++ zeros (4 + (2 + (2 + 32)))) 0 4 envelopeMagic = some _ := putLE_next rfl
  have hversion : putLE ([] ++ enc 4 envelopeMagic ++ zeros (2 + (2 + 32))) 4 2 envelopeVersionSingleton = some _ :=
    putLE_next rfl
  rw [attrFill, if_pos rfl, attrFillSingleton, show zeros singletonLen = [] ++ zeros (4 + (2 + (2 + 32))) from rfl]
  simp only [Option.bind_eq_bind]
  rw [hmagic, Option.bind_some, hversion, Option.bind_some, zeros_skip, List.nil_append,
    show enc 4 envelopeMagic ++ enc 2 envelopeVersionSingleton ++ enc 2 0 = loneHeader from rfl, fillLone_one hready h,
    Option.bind_some]
  rfl

end Fill

/-! ### The visit -/

section Found
variable {oc : Nat} {alloc : Bool} {p : List UInt8} {recs : List Record} {r : Record} {pm : Option Map} {pc : ProbeCtx}
  {tp : Pending} {d : Digest}

theorem takes_other (h : pc.digest ∉ recs.map (·.digest)) : recs.foldlM (ProbeCtx.take pm) pc = some pc := by
  induction recs with
  | nil => rfl
  | cons r recs ih =>
    rw [List.map_cons, List.mem_cons, not_or] at h
    rw [List.foldlM_cons, ProbeCtx.take, if_neg (Ne.symm h.1)]
    exact ih h.2

theorem takes_found (hr : r ∈ recs) (hnd : (recs.map (·.digest)).Nodup) (hd : r.digest = pc.digest) :
    recs.foldlM (ProbeCtx.take pm) pc = (r.probe pm).map fun probe => { pc with found := true, probe } := by
  induction recs with
  | nil => cases hr
  | cons x recs ih =>
    rw [List.map_cons, List.nodup_cons] at hnd
    rw [List.foldlM_cons, ProbeCtx.take]
    rcases List.mem_cons.mp hr with rfl | hr
    · rw [if_pos hd]
      cases r.probe pm with
      | none => rfl
      | some v =>
        have hrest : recs.foldlM (ProbeCtx.take pm) { pc with found := true, probe := v } = some _ :=
          takes_other (hd ▸ hnd.1)
        exact hrest
    · have hx : x.digest ≠ pc.digest := fun heq => hnd.1 (heq.trans hd.symm ▸ List.mem_map_of_mem hr)
      rw [if_neg hx]
      exact ih hr hnd.2

/-- What a probe makes of the verdict on a record. -/
def modeOf (v : ProbeResult) : Except Fault (Option PurgeMode) :=
  match v with
  | .none => .ok none
  | .hard => .ok (some .hard)
  | .soft => .ok (some .soft)

theorem attrProbe_found (h : Envelope p recs) (hr : r ∈ recs) :
    attrProbe pm r.digest (.bytes p) = (r.probe pm).map modeOf := by
  have htakes : recs.foldlM (ProbeCtx.take pm) (.init r.digest) = _ := takes_found hr h.1.distinct rfl
  rw [attrProbe, visit_envelope h, htakes, Option.map_map]
  congr 1
  funext v
  cases v <;> rfl

theorem toNat_fold {k : Key} : k.fold.toNat = (foldDigest k.digest).val := by
  have hlt := (foldDigest k.digest).lt_max
  exact UInt64.toNat_ofNat_of_lt' (hlt.trans (by decide))

/-- A pending registration is probed as its record is. -/
theorem probeSnapshots_eq (hkeys : tp.keys ≠ []) (hagree : ∀ k ∈ tp.keys, k.regSeq = tp.regSeq)
    (halloc : alloc = true ∨ tp.keys.length ≤ inlineKeys) :
    probeSnapshots alloc pm tp.keys = ((tp.record d).probe pm).map modeOf := by
  obtain ⟨k, ks, hcons⟩ := List.exists_cons_of_ne_nil hkeys
  have hseq : k.regSeq = tp.regSeq := hagree k (by rw [hcons]; exact List.mem_cons_self)
  have hfolds : (tp.record d).folds.map UInt64.toNat = tp.keys.map fun k => (foldDigest k.digest).val := by
    rw [Pending.record, List.map_map]
    exact List.map_congr_left fun k _ => toNat_fold
  have hsame : ¬(ks.any fun k' => k'.regSeq ≠ k.regSeq) = true := by
    intro hany
    obtain ⟨k', hk', hne⟩ := List.any_eq_true.mp hany
    exact of_decide_eq_true hne ((hagree k' (by rw [hcons]; exact List.mem_cons_of_mem _ hk')).trans hseq.symm)
  have hroom : ¬(inlineKeys < (k :: ks).length ∧ alloc = false) := by
    rintro ⟨hlt, hfail⟩
    rcases halloc with hok | hle
    · rw [hok] at hfail
      cases hfail
    · rw [hcons] at hle
      exact absurd hlt (Nat.not_lt_of_le hle)
  cases pm with
  | none =>
    rw [hcons]
    rfl
  | some m =>
    rw [Record.probe, hfolds, hcons, probeSnapshots, if_neg hsame, if_neg hroom, hseq, Pending.record]
    congr 1
    funext v
    cases v <;> rfl

end Found

section RoundTrip
variable {oc : Nat} {nss nss' : List Namespace} {z z' : Sizing}

theorem Sizes.layout (h : Sizes oc nss ⟨[], envelopeHeaderLen, false⟩ z' nss') : Layout (records oc nss) where
  distinct := by
    have hnd := h.distinct List.nodup_nil
    rwa [h.seen, List.nil_append] at hnd
  tagged := by
    intro r hr
    obtain ⟨ns, -, hrec⟩ := List.mem_filterMap.mp hr
    obtain ⟨tp, htp, rfl⟩ := Option.map_eq_some_iff.mp hrec
    exact fun hnil => registered_tagged htp (List.map_eq_nil_iff.mp hnil)
  few := h.few
  count := by
    have hcount := h.count (Nat.zero_le _)
    rwa [h.seen, List.nil_append, List.length_map] at hcount
  fits := by
    have hfits := h.fits (by decide)
    rwa [h.total] at hfits

/-- The namespaces that have a record. -/
theorem mem_records_digest {d : Digest} :
    (∃ ns ∈ nss, (ns.registered oc).isSome ∧ ns.digest = d) ↔ d ∈ (records oc nss).map (·.digest) := by
  constructor
  · rintro ⟨ns, hns, hreg, rfl⟩
    obtain ⟨tp, htp⟩ := Option.isSome_iff_exists.mp hreg
    exact List.mem_map.mpr ⟨tp.record ns.digest,
      List.mem_filterMap.mpr ⟨ns, hns, by rw [Namespace.record, htp, Option.map_some]⟩, rfl⟩
  · intro hd
    obtain ⟨r, hr, rfl⟩ := List.mem_map.mp hd
    obtain ⟨ns, hns, hrec⟩ := List.mem_filterMap.mp hr
    obtain ⟨tp, htp, rfl⟩ := Option.map_eq_some_iff.mp hrec
    exact ⟨ns, hns, Option.isSome_iff_exists.mpr ⟨tp, htp⟩, rfl⟩

theorem Sizes.ready (h : Sizes oc nss z z' nss') : ∀ ns ∈ nss', Ready oc ns := by
  intro ns' hns'
  rw [h.left] at hns'
  obtain ⟨ns, hns, rfl⟩ := List.mem_map.mp hns'
  have hreg : (ns.sized oc).registered oc = _ := registered_sized
  refine ⟨fun tp' htp' => ?_, fun tp' htp' => ?_⟩
  · obtain ⟨tp, htp, rfl⟩ := Option.map_eq_some_iff.mp (hreg.symm.trans htp')
    rfl
  · obtain ⟨tp, htp, rfl⟩ := Option.map_eq_some_iff.mp (hreg.symm.trans htp')
    exact h.agree ns hns tp htp

/-- The fill writes as many bytes as the size has announced, in the layout of that length. -/
theorem Sizes.filled (h : Sizes oc nss ⟨[], envelopeHeaderLen, false⟩ z' nss') (hne : records oc nss ≠ []) :
    ∃ p nss'', attrFill oc (if z'.compactSingleton then singletonLen else z'.total) nss' = some (p, nss'') ∧
      p.length = (if z'.compactSingleton then singletonLen else z'.total) ∧ Envelope p (records oc nss) ∧
      (p = general (records oc nss) ↔ (if z'.compactSingleton then singletonLen else z'.total) ≠ singletonLen) := by
  have hl := h.layout
  have hrecs : records oc nss' = records oc nss := by rw [h.left, records_sized]
  have htotal : z'.total = generalLen (records oc nss) := h.total
  by_cases hc : z'.compactSingleton = true
  · obtain ⟨-, ⟨d, regSeq, folds⟩, hone, hlen⟩ : _ ∧ ∃ r, records oc nss = [r] ∧ r.folds.length = 1 :=
      (h.compact.mp hc).resolve_left fun hbad => hne hbad.1
    obtain ⟨fold, rfl⟩ := List.length_eq_one_iff.mp hlen
    rw [if_pos hc]
    refine ⟨_, _, attrFill_compact h.ready (hrecs.trans hone), length_compact, ⟨hl, .inr ⟨_, _, _, hone, rfl⟩⟩, ?_⟩
    refine iff_of_false (fun heq => generalLen_ne hl ?_) (not_not_intro rfl)
    rw [← length_general, ← heq, length_compact]
  · rw [if_neg hc, htotal, ← hrecs]
    have hl' : Layout (records oc nss') := hrecs ▸ hl
    exact ⟨_, _, attrFill_general h.ready hl' (hrecs ▸ hne) rfl, length_general, ⟨hl', .inl rfl⟩,
      iff_of_true rfl (generalLen_ne hl')⟩

end RoundTrip

/-- Where the size callback announces a length for the namespaces that have tags for an object, the fill callback
    writes so many bytes, in the layout of that length. A visit of them rejects nothing, finds a record for the
    namespaces that have one and no other, and says of its tags what the pending registration says. -/
theorem attribute_round_trip (oc : Nat) (alloc : Nat → Bool) (nss nss' : List Namespace) (L : Nat)
    (h : attrSize oc alloc nss = (.ok L, nss')) :
    (L = 0 ∧ ∀ ns ∈ nss, ns.registered oc = none) ∨
    ∃ p nss'', attrFill oc L nss' = some (p, nss'') ∧ p.length = L ∧ Envelope p (records oc nss) ∧
      (p = general (records oc nss) ↔ L ≠ singletonLen) ∧
      ∀ cfg pm, Held cfg pm →
        (∀ d, ∃ pc, visit pm p (.init d) = some pc ∧ pc.invalid = false ∧
          (pc.found = true ↔ ∃ ns ∈ nss, (ns.registered oc).isSome ∧ ns.digest = d)) ∧
        ∀ ns ∈ nss, ∀ tp, ns.registered oc = some tp → ∀ alloc', (alloc' = true ∨ tp.keys.length ≤ inlineKeys) →
          attrProbe pm ns.digest (.bytes p) = probeSnapshots alloc' pm tp.keys := by
  rw [attrSize] at h
  rcases hrun : sizeNamespaces oc alloc nss ⟨[], envelopeHeaderLen, false⟩ with ⟨r, rest⟩
  rw [hrun] at h
  dsimp only at h
  obtain ⟨hr, rfl⟩ := Prod.mk.inj h
  cases r with
  | error f => cases hr
  | ok z' =>
    have hs := sizeNamespaces_spec hrun
    have hL : (if z'.seen = [] then 0 else if z'.compactSingleton then singletonLen else z'.total) = L := Except.ok.inj hr
    have hseen : z'.seen = (records oc nss).map (·.digest) := hs.seen
    by_cases hnil : records oc nss = []
    -- No record, no attribute.
    · rw [if_pos (by rw [hseen, hnil]; rfl)] at hL
      refine .inl ⟨hL.symm, fun ns hns => ?_⟩
      by_contra hreg
      obtain ⟨tp, htp⟩ := Option.ne_none_iff_exists'.mp hreg
      have hmem : tp.record ns.digest ∈ records oc nss :=
        List.mem_filterMap.mpr ⟨ns, hns, by rw [Namespace.record, htp, Option.map_some]⟩
      rw [hnil] at hmem
      cases hmem
    · rw [if_neg (fun h0 => hnil (List.map_eq_nil_iff.mp (hseen.symm.trans h0)))] at hL
      obtain ⟨p, nss'', hfill, hlen, henv, hlayout⟩ := hs.filled hnil
      rw [hL] at hfill hlen hlayout
      refine .inr ⟨p, nss'', hfill, hlen, henv, hlayout, fun cfg pm hpm => ⟨fun d => ?_, ?_⟩⟩
      -- What was written is a canonical envelope, so that the visit reads its records back.
      · obtain ⟨pc, hvisit, -⟩ : ∃ pc, visit pm p (.init d) = some pc ∧ _ := visit_sound hpm.probesEnd
        refine ⟨pc, hvisit, (valid_iff hpm.probesEnd hvisit).mpr ⟨_, henv⟩, ?_⟩
        rw [visit_envelope henv] at hvisit
        rw [mem_records_digest]
        by_cases hd : d ∈ (records oc nss).map (·.digest)
        · obtain ⟨r, hr, hrd⟩ := List.mem_map.mp hd
          rw [takes_found hr henv.1.distinct hrd] at hvisit
          obtain ⟨v, -, rfl⟩ := Option.map_eq_some_iff.mp hvisit
          exact iff_of_true rfl hd
        · rw [takes_other hd] at hvisit
          cases hvisit
          exact iff_of_false Bool.false_ne_true hd
      · intro ns hns tp htp alloc' halloc
        have hmem : tp.record ns.digest ∈ records oc nss :=
          List.mem_filterMap.mpr ⟨ns, hns, by rw [Namespace.record, htp, Option.map_some]⟩
        -- The record of the namespace is the one that its digest finds.
        have hfound : attrProbe pm (tp.record ns.digest).digest (.bytes p) = _ := attrProbe_found henv hmem
        exact hfound.trans (probeSnapshots_eq (registered_tagged htp) (hs.agree ns hns tp htp) halloc).symm

/-- Three namespaces, of which the second has no registration for the object. -/
def threeNamespaces : List Namespace :=
  [⟨⟨1, 2⟩, true, true, [⟨4, false, [⟨⟨5, 6⟩, 3⟩, ⟨⟨7, 8⟩, 3⟩], 0, false⟩]⟩,
   ⟨⟨9, 9⟩, true, true, [⟨2, false, [⟨⟨5, 6⟩, 1⟩], 0, false⟩]⟩,
   ⟨⟨3, 4⟩, true, true, [⟨4, true, [⟨⟨5, 6⟩, 2⟩], 0, false⟩]⟩]

/-- Two soft purges of another tag and a hard purge of the one that they all have. -/
def tagPurges : List Move :=
  (List.replicate 2 [.purge ⟨7, 8⟩ .soft .ok, .upsert, .prune .ok]).flatten ++ [.purge ⟨5, 6⟩ .hard .ok, .upsert]

theorem attribute_round_trip_three :
    ∃ nss', attrSize 4 (fun _ => true) threeNamespaces = (.ok 104, nss') ∧
      ∃ p nss'', attrFill 4 104 nss' = some (p, nss'') ∧ p.length = 104 ∧
        p = general (records 4 threeNamespaces) ∧
        ∃ s, Machine.run (Life.step ⟨100, false⟩) Life.init tagPurges = some s ∧
          (∃ pc, visit (some s.map) p (.init ⟨9, 9⟩) = some pc ∧ pc.invalid = false ∧ pc.found = false) ∧
          attrProbe (some s.map) ⟨3, 4⟩ (.bytes p) = some (.ok (some .hard)) := by
  obtain ⟨nss', hsize⟩ : ∃ nss', attrSize 4 (fun _ => true) threeNamespaces = (.ok 104, nss') := ⟨_, rfl⟩
  have hrun : (Machine.run (Life.step ⟨100, false⟩) Life.init tagPurges).map (fun s =>
      decide (probeSnapshots true (some s.map) [⟨⟨5, 6⟩, 2⟩] = some (.ok (some .hard)))) = some true := by decide +kernel
  obtain ⟨s, hs, hhard⟩ := Option.map_eq_some_iff.mp hrun
  have hheld : Held ⟨100, false⟩ (some s.map) := by
    intro m hm
    exact ⟨s, .of_run hs, Option.some.inj hm⟩
  obtain ⟨h0, -⟩ | ⟨p, nss'', hfill, hlen, -, hlayout, hvisit⟩ :=
    attribute_round_trip 4 (fun _ => true) threeNamespaces nss' 104 hsize
  · exact absurd h0 (by decide)
  · obtain ⟨hfound, hverdict⟩ := hvisit ⟨100, false⟩ (some s.map) hheld
    obtain ⟨pc, hvisited, hvalid, hiff⟩ := hfound ⟨9, 9⟩
    refine ⟨nss', hsize, p, nss'', hfill, hlen, hlayout.mpr (by decide), s, hs, ⟨pc, hvisited, hvalid, ?_⟩, ?_⟩
    · exact Bool.eq_false_iff.mpr (mt hiff.mp (by decide))
    · have heq := hverdict ⟨⟨3, 4⟩, true, true, [⟨4, true, [⟨⟨5, 6⟩, 2⟩], 0, false⟩]⟩ (by decide) _ rfl true (.inl rfl)
      exact heq.trans (of_decide_eq_true hhard)

end Cachetag.Fellow
