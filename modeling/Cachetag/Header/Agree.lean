import Cachetag.Header.Tokens

/-! The two tokenisers go by the same tokens, reject for the same reasons, and a purge with a header hits what
was registered with it. -/

namespace Cachetag.Header
open Scan

/-- Why a header is rejected, whatever it is for. -/
inductive Reason where
  | headerTooLarge
  | embeddedWs
  | keyTooLong
deriving DecidableEq, Repr

def Reason.add : Reason → AddFault
  | .headerTooLarge => .headerTooLarge
  | .embeddedWs => .embeddedWs
  | .keyTooLong => .keyTooLong

def Reason.purge : Reason → PurgeFault
  | .headerTooLarge => .headerTooLarge
  | .embeddedWs => .embeddedWs
  | .keyTooLong => .keyTooLong

section
variable (limits : Limits)

/-- What is wrong with a token. -/
def offence (tok : Bytes) : Option Reason :=
  if hasEmbeddedWs tok then some .embeddedWs
  else if limits.maxKeyLength.toNat < tok.length then some .keyTooLong
  else none

/-- The tokens in front of the first one that offends. -/
def goodTokens : List Bytes → List Bytes
  | [] => []
  | field :: fields =>
    if (trim field).length = 0 then goodTokens fields
    else if (offence limits (trim field)).isSome then []
    else trim field :: goodTokens fields

/-- What is wrong with that one. -/
def firstOffence : List Bytes → Option Reason
  | [] => none
  | field :: fields =>
    if (trim field).length = 0 then firstOffence fields
    else (offence limits (trim field)).or (firstOffence fields)

end

/-! ### Sorting -/

section Keys
variable {a b c : Digest} {last : Option Digest} {l : List Digest}

theorem compare_le : purgeKeyCompare a b ≤ 0 ↔ a.hi < b.hi ∨ a.hi = b.hi ∧ a.lo ≤ b.lo := by
  unfold purgeKeyCompare
  simp only [UInt64.lt_iff_toNat_lt, UInt64.le_iff_toNat_le, ← UInt64.toNat_inj, ne_eq, ite_not]
  split_ifs <;> omega

theorem compare_lt : purgeKeyCompare a b < 0 ↔ purgeKeyCompare a b ≤ 0 ∧ a ≠ b := by
  cases a
  cases b
  rw [compare_le, ne_eq, Digest.mk.injEq]
  unfold purgeKeyCompare
  simp only [UInt64.lt_iff_toNat_lt, UInt64.le_iff_toNat_le, ← UInt64.toNat_inj, ne_eq, ite_not]
  split_ifs <;> omega

theorem compare_trans (hab : purgeKeyCompare a b ≤ 0) (hbc : purgeKeyCompare b c ≤ 0) : purgeKeyCompare a c ≤ 0 := by
  rw [compare_le] at *
  simp only [UInt64.lt_iff_toNat_lt, UInt64.le_iff_toNat_le, ← UInt64.toNat_inj] at *
  omega

theorem compare_total : purgeKeyCompare a b ≤ 0 ∨ purgeKeyCompare b a ≤ 0 := by
  rw [compare_le, compare_le]
  simp only [UInt64.lt_iff_toNat_lt, UInt64.le_iff_toNat_le, ← UInt64.toNat_inj]
  omega

instance : Std.Total fun ka kb : Digest => purgeKeyCompare ka kb ≤ 0 := ⟨fun _ _ => compare_total⟩

instance : IsTrans Digest fun ka kb => purgeKeyCompare ka kb ≤ 0 := ⟨fun _ _ _ => compare_trans⟩

theorem qsortKeys_sorted : (qsortKeys l).Pairwise fun ka kb => purgeKeyCompare ka kb ≤ 0 :=
  List.pairwise_insertionSort _ l

/-- On sorted keys, the loop keeps one of each. -/
theorem uniqueKeys_spec (hl : l.Pairwise fun ka kb => purgeKeyCompare ka kb ≤ 0)
    (hlast : ∀ k, last = some k → ∀ x ∈ l, purgeKeyCompare k x ≤ 0) :
    (uniqueKeys last l).Pairwise (fun ka kb => purgeKeyCompare ka kb < 0) ∧
      ∀ x, x ∈ uniqueKeys last l ↔ x ∈ l ∧ last ≠ some x := by
  induction l generalizing last with
  | nil => exact ⟨List.Pairwise.nil, fun x => by simp [uniqueKeys]⟩
  | cons key keys ih =>
    obtain ⟨hkey, hkeys⟩ := List.pairwise_cons.mp hl
    unfold uniqueKeys
    split
    · rename_i heq
      obtain ⟨hsorted, hmem⟩ := ih hkeys fun k hk x hx => hlast k hk x (List.mem_cons_of_mem _ hx)
      refine ⟨hsorted, fun x => ?_⟩
      rw [hmem, List.mem_cons]
      refine and_congr_left fun hne => ⟨.inr, fun hx => hx.resolve_left ?_⟩
      rintro rfl
      exact hne heq
    · rename_i hne
      obtain ⟨hsorted, hmem⟩ := @ih (some key) hkeys fun k hk x hx => by
        cases hk
        exact hkey x hx
      refine ⟨List.pairwise_cons.mpr ⟨fun x hx => ?_, hsorted⟩, fun x => ?_⟩
      · obtain ⟨hx, hxne⟩ := (hmem x).mp hx
        exact compare_lt.mpr ⟨hkey x hx, fun heq => hxne (congrArg some heq)⟩
      · rw [List.mem_cons, List.mem_cons, hmem]
        constructor
        · rintro (rfl | ⟨hx, hxne⟩)
          · exact ⟨.inl rfl, hne⟩
          · refine ⟨.inr hx, fun hlx => ?_⟩
            -- Keys in a row are sorted, so `last` cannot come back behind `key`.
            have h1 := hlast x hlx key List.mem_cons_self
            have h2 := hkey x hx
            refine hne (hlx.trans (congrArg some ?_))
            by_contra hxk
            have := compare_lt.mpr ⟨h1, hxk⟩
            have := compare_lt.mpr ⟨h2, fun h => hxk h.symm⟩
            rw [compare_le] at h1 h2
            cases x
            cases key
            simp only [Digest.mk.injEq, UInt64.lt_iff_toNat_lt, UInt64.le_iff_toNat_le, ← UInt64.toNat_inj] at h1 h2 hxk
            omega
        · rintro ⟨rfl | hx, hxne⟩
          · exact .inl rfl
          · by_cases heq : x = key
            · exact .inl heq
            · exact .inr ⟨hx, fun h => heq (Option.some.inj h).symm⟩

end Keys
/-! ### Purging -/

section Purge
variable {limits : Limits} {digest : Bytes → Digest} {alloc : Nat → Bool} {fs : List Bytes} {v : TokenVector}

theorem offence_none {tok : Bytes} (h : offence limits tok = none) :
    hasEmbeddedWs tok = false ∧ tok.length ≤ limits.maxKeyLength.toNat := by
  unfold offence at h
  split at h
  · cases h
  split at h
  · cases h
  · rename_i hws hlen
    exact ⟨by simpa using hws, Nat.le_of_not_lt hlen⟩

theorem goodTokens_ok {tok : Bytes} (h : tok ∈ goodTokens limits fs) : tok.length ≠ 0 ∧ offence limits tok = none := by
  induction fs with
  | nil => cases h
  | cons f fs ih =>
    unfold goodTokens at h
    split at h
    · exact ih h
    · rename_i hlen
      split at h
      · cases h
      · rename_i hoff
        rcases List.mem_cons.mp h with rfl | h
        · exact ⟨hlen, by simpa using hoff⟩
        · exact ih h

/-- The first loop of a purge collects the tokens up to the first one that offends. -/
theorem visits_purgeField (halloc : ∀ n, alloc n = true) (hfew : v.tokens.length + fs.length ≤ 2 ^ 32) :
    ∃ cap, visits (purgeField limits alloc) fs v =
      (⟨v.tokens ++ goodTokens limits fs, cap⟩, (firstOffence limits fs).map Reason.purge) := by
  induction fs generalizing v with
  | nil => exact ⟨v.cap, by simp [visits, goodTokens, firstOffence]⟩
  | cons f fs ih =>
    rw [List.length_cons] at hfew
    unfold visits goodTokens firstOffence
    -- What becomes of a good token.
    have hpush : ∀ cap, ∃ cap', visits (purgeField limits alloc) fs ⟨v.tokens ++ [trim f], cap⟩ =
        (⟨v.tokens ++ trim f :: goodTokens limits fs, cap'⟩, (firstOffence limits fs).map Reason.purge) := by
      intro cap
      obtain ⟨cap', h⟩ := ih (v := ⟨v.tokens ++ [trim f], cap⟩) (by
        rw [List.length_append, List.length_singleton]
        omega)
      exact ⟨cap', by rw [h, List.append_assoc, List.singleton_append]⟩
    unfold purgeField
    by_cases h0 : (trim f).length = 0
    · simp only [if_pos h0]
      exact ih (by omega)
    · simp only [if_neg h0]
      by_cases hws : hasEmbeddedWs (trim f) = true
      · simp only [offence, if_pos hws]
        exact ⟨v.cap, by simp [Reason.purge]⟩
      by_cases hlen : limits.maxKeyLength.toNat < (trim f).length
      · simp only [offence, if_neg hws, if_pos hlen]
        exact ⟨v.cap, by simp [Reason.purge]⟩
      have hgrow : ¬(Purgemap.sizeMax / 2 / 16 < v.tokens.length ∨ (!alloc (2 * v.tokens.length)) = true) := by
        rw [halloc, Bool.not_true, or_iff_left Bool.false_ne_true]
        unfold Purgemap.sizeMax
        omega
      simp only [offence, if_neg hws, if_neg hlen, Option.isSome_none, Bool.false_eq_true, if_false, Option.none_or]
      by_cases hcap : v.tokens.length = v.cap
      · rw [if_pos hcap, if_neg (hcap ▸ hgrow)]
        exact hpush _
      · rw [if_neg hcap]
        exact hpush _

/-- A token that offends ends the loop with a fault, whatever is allocated. -/
theorem visits_purgeField_fails (hoff : firstOffence limits fs ≠ none) :
    (visits (purgeField limits alloc) fs v).2 ≠ none := by
  induction fs generalizing v with
  | nil => exact absurd rfl hoff
  | cons f fs ih =>
    unfold firstOffence at hoff
    unfold visits purgeField
    by_cases h0 : (trim f).length = 0
    · simp only [if_pos h0] at hoff ⊢
      exact ih hoff
    simp only [if_neg h0] at hoff ⊢
    by_cases hws : hasEmbeddedWs (trim f) = true
    · simp only [if_pos hws]
      exact Option.some_ne_none _
    by_cases hlen : limits.maxKeyLength.toNat < (trim f).length
    · simp only [if_neg hws, if_pos hlen]
      exact Option.some_ne_none _
    rw [offence, if_neg hws, if_neg hlen, Option.none_or] at hoff
    simp only [if_neg hws, if_neg hlen]
    by_cases hcap : v.tokens.length = v.cap
    · rw [if_pos hcap]
      by_cases hgrow : Purgemap.sizeMax / 2 / 16 < v.cap ∨ (!alloc (2 * v.cap)) = true
      · rw [if_pos hgrow]
        exact Option.some_ne_none _
      · rw [if_neg hgrow]
        exact ih hoff
    · rw [if_neg hcap]
      exact ih hoff

theorem hashTokens_ok {tokens : List Bytes} (h : ∀ tok ∈ tokens, tok.length ≠ 0 ∧ offence limits tok = none) :
    hashTokens limits digest tokens = .ok (tokens.map digest) := by
  induction tokens with
  | nil => rfl
  | cons tok tokens ih =>
    obtain ⟨h0, hoff⟩ := h tok List.mem_cons_self
    have hlen := (offence_none hoff).2
    unfold hashTokens digestSnapshotLen
    rw [if_neg h0, if_neg (Nat.not_lt.mpr hlen)]
    dsimp only
    rw [ih fun t ht => h t (List.mem_cons_of_mem _ ht)]
    rfl

/-- The keys of tags, as a purge passes them on. -/
def sortedKeys (keys : List Digest) : List Digest := uniqueKeys none (qsortKeys keys)

theorem sortedKeys_spec {keys : List Digest} : (sortedKeys keys).Pairwise (fun ka kb => purgeKeyCompare ka kb < 0) ∧
    ∀ d, d ∈ sortedKeys keys ↔ d ∈ keys := by
  obtain ⟨hsorted, hmem⟩ := @uniqueKeys_spec none _ (@qsortKeys_sorted keys) nofun
  refine ⟨hsorted, fun d => ?_⟩
  unfold sortedKeys
  rw [hmem, qsortKeys, List.mem_insertionSort]
  simp

theorem purgeTokens_eq (halloc : ∀ n, alloc n = true) :
    purgeTokens limits digest alloc (goodTokens limits fs) =
      if goodTokens limits fs = [] then .nothing else .batch (sortedKeys ((goodTokens limits fs).map digest)) := by
  unfold purgeTokens
  rw [hashTokens_ok fun tok h => goodTokens_ok h, halloc]
  simp only [List.length_eq_zero_iff, Bool.not_true, Bool.false_eq_true, if_false]
  rfl

end Purge

/-! ### Registering -/

section Add
variable {limits : Limits} {digest : Bytes → Digest} {alloc : Nat → Bool} {fetch : Fetch} {fs : List Bytes}
  {tp tp₀ : Pending} {snap : Snapshot} {max : Nat}

theorem pendingAddUnique_mem (h : snap.digest ∈ tp.digests) : pendingAddUnique alloc tp snap max = .ok tp := by
  rw [pendingAddUnique, dif_pos h]

theorem pendingAddUnique_push (halloc : ∀ n, alloc n = true) (h : snap.digest ∉ tp.digests)
    (hroom : tp.keys.length < max) :
    ∃ tp', pendingAddUnique alloc tp snap max = .ok tp' ∧ tp'.digests = tp.digests ++ [snap.digest] := by
  rw [pendingAddUnique, dif_neg h, if_neg (Nat.not_le.mpr hroom), if_neg (by rw [halloc]; simp)]
  refine ⟨_, rfl, ?_⟩
  unfold Pending.digests
  rw [List.map_append, List.map_singleton, Pending.copy_digest]

/-- The tags of two lists, counted once. -/
def tagCount (l l' : List Digest) : Nat := (l.toFinset ∪ l'.toFinset).card

/-- A tag is registered, if it fits in. -/
theorem pendingAddUnique_fits {ds : List Digest} (halloc : ∀ n, alloc n = true)
    (hfits : tagCount tp.digests (snap.digest :: ds) ≤ max) :
    ∃ tp', pendingAddUnique alloc tp snap max = .ok tp' ∧
      tp'.digests.toFinset = insert snap.digest tp.digests.toFinset ∧ tagCount tp'.digests ds ≤ max := by
  have hcount : ∀ tp' : Pending, tp'.digests.toFinset = insert snap.digest tp.digests.toFinset →
      tagCount tp'.digests ds ≤ max := by
    intro tp' h
    unfold tagCount at hfits ⊢
    rw [h, Finset.insert_union, ← Finset.union_insert, ← List.toFinset_cons]
    exact hfits
  by_cases hmem : snap.digest ∈ tp.digests
  · have hsame : tp.digests.toFinset = insert snap.digest tp.digests.toFinset :=
      (Finset.insert_eq_of_mem (List.mem_toFinset.mpr hmem)).symm
    exact ⟨tp, pendingAddUnique_mem hmem, hsame, hcount tp hsame⟩
  · have hroom : tp.keys.length < max := by
      have hsub : insert snap.digest tp.digests.toFinset ⊆ tp.digests.toFinset ∪ (snap.digest :: ds).toFinset := by
        intro x hx
        rcases Finset.mem_insert.mp hx with rfl | hx
        · exact Finset.mem_union_right _ (List.mem_toFinset.mpr List.mem_cons_self)
        · exact Finset.mem_union_left _ hx
      have hcard := (Finset.card_le_card hsub).trans hfits
      have hlen : tp.digests.toFinset.card = tp.keys.length :=
        (List.toFinset_card_of_nodup tp.nodup).trans (List.length_map _)
      rw [Finset.card_insert_of_notMem (by simpa using hmem), hlen] at hcard
      omega
    obtain ⟨tp', hok, hd⟩ := pendingAddUnique_push halloc hmem hroom
    have hset : tp'.digests.toFinset = insert snap.digest tp.digests.toFinset := by
      rw [hd, List.toFinset_append, Finset.union_comm]
      rfl
    exact ⟨tp', hok, hset, hcount tp' hset⟩

/-- What a token does once `cachetag_add_begin` has been called. -/
theorem addToken_eq (tok : Bytes) (hlen : tok.length ≠ 0) :
    addToken limits digest alloc ⟨some tp, false⟩ tok =
      if limits.maxKeyLength.toNat < tok.length then (⟨some tp, false⟩, some .keyTooLong)
      else
        match pendingAddUnique alloc tp ⟨digest tok, tp.publicationSeq⟩ limits.maxKeysPerObject.toNat with
        | .error f => (⟨some tp, false⟩, some f)
        | .ok tp => (⟨some tp, false⟩, none) := by
  unfold addToken addSnapshot digestSnapshotLen
  simp only [if_neg hlen]
  by_cases hbig : limits.maxKeyLength.toNat < tok.length
  · simp only [if_pos hbig]
  · have hkey : (if limits.maxKeyLength.toNat < tok.length then Except.error KeyFault.e2big
        else Except.ok (digest tok)) = Except.ok (digest tok) := if_neg hbig
    simp only [hkey]
    exact (if_neg hbig).symm

/-- A field does what its token does, with the registration that the loop has or gets. -/
theorem addField_eq (hbegin : addBegin fetch = .ok (some tp₀)) {st : AddState} (hskip : st.skip = false) (f : Bytes) :
    addField limits digest alloc fetch st f =
      if (trim f).length = 0 then (st, none)
      else if hasEmbeddedWs (trim f) then (st, some .embeddedWs)
      else addToken limits digest alloc ⟨some (st.tp.getD tp₀), false⟩ (trim f) := by
  obtain ⟨tp, skip⟩ := st
  cases hskip
  unfold addField
  cases tp with
  | none =>
    simp only [hbegin]
    rfl
  | some tp => rfl

/-- What the loop of a registration leaves, if all tags fit in. -/
structure Registered (limits : Limits) (digest : Bytes → Digest) (tp₀ : Pending) (fs : List Bytes) (st : AddState)
    (r : AddState × Option AddFault) : Prop where
  fault : r.2 = (firstOffence limits fs).map Reason.add
  tags : (r.1.tp.getD tp₀).digests.toFinset =
    (st.tp.getD tp₀).digests.toFinset ∪ ((goodTokens limits fs).map digest).toFinset

theorem visits_addField (halloc : ∀ n, alloc n = true) (hbegin : addBegin fetch = .ok (some tp₀)) {st : AddState}
    (hskip : st.skip = false)
    (hfits : tagCount (st.tp.getD tp₀).digests ((goodTokens limits fs).map digest) ≤ limits.maxKeysPerObject.toNat) :
    Registered limits digest tp₀ fs st (visits (addField limits digest alloc fetch) fs st) := by
  induction fs generalizing st with
  | nil => exact ⟨rfl, by simp [visits, goodTokens]⟩
  | cons f fs ih =>
    unfold goodTokens at hfits
    unfold visits
    rw [addField_eq hbegin hskip]
    by_cases h0 : (trim f).length = 0
    · rw [if_pos h0] at hfits ⊢
      obtain ⟨hfault, htags⟩ := ih hskip hfits
      exact ⟨by rw [firstOffence, if_pos h0]; exact hfault, by rw [goodTokens, if_pos h0]; exact htags⟩
    rw [if_neg h0] at hfits ⊢
    by_cases hws : hasEmbeddedWs (trim f) = true
    · rw [if_pos hws]
      have hoff : offence limits (trim f) = some .embeddedWs := if_pos hws
      exact ⟨by rw [firstOffence, if_neg h0, hoff]; rfl, by rw [goodTokens, if_neg h0, hoff]; simp⟩
    rw [if_neg hws, addToken_eq _ h0]
    by_cases hlen : limits.maxKeyLength.toNat < (trim f).length
    · rw [if_pos hlen]
      have hoff : offence limits (trim f) = some .keyTooLong := by rw [offence, if_neg hws, if_pos hlen]
      exact ⟨by rw [firstOffence, if_neg h0, hoff]; rfl, by rw [goodTokens, if_neg h0, hoff]; simp⟩
    rw [if_neg hlen]
    have hoff : offence limits (trim f) = none := by rw [offence, if_neg hws, if_neg hlen]
    rw [hoff, Option.isSome_none, if_neg (by decide), List.map_cons] at hfits
    let snap : Snapshot := ⟨digest (trim f), (st.tp.getD tp₀).publicationSeq⟩
    obtain ⟨tp', hok, hset, hfits'⟩ := pendingAddUnique_fits halloc
      (show tagCount (st.tp.getD tp₀).digests (snap.digest :: (goodTokens limits fs).map digest) ≤ _ from hfits)
    rw [hok]
    obtain ⟨hfault, htags⟩ := @ih ⟨some tp', false⟩ rfl hfits'
    refine ⟨by rw [firstOffence, if_neg h0, hoff, Option.none_or]; exact hfault, ?_⟩
    rw [goodTokens, if_neg h0, hoff, Option.isSome_none, if_neg (by decide), List.map_cons, List.toFinset_cons,
      Finset.union_insert]
    refine htags.trans ?_
    rw [Option.getD_some, hset, Finset.insert_union]

/-- A token that offends fails the fetch, whether or not the tags in front of it fit in. -/
theorem visits_addField_fails (hbegin : addBegin fetch = .ok (some tp₀)) {st : AddState} (hskip : st.skip = false)
    (hoff : firstOffence limits fs ≠ none) : (visits (addField limits digest alloc fetch) fs st).2 ≠ none := by
  induction fs generalizing st with
  | nil => exact absurd rfl hoff
  | cons f fs ih =>
    unfold firstOffence at hoff
    unfold visits
    rw [addField_eq hbegin hskip]
    by_cases h0 : (trim f).length = 0
    · rw [if_pos h0] at hoff ⊢
      exact ih hskip hoff
    rw [if_neg h0] at hoff ⊢
    by_cases hws : hasEmbeddedWs (trim f) = true
    · rw [if_pos hws]
      exact Option.some_ne_none _
    rw [if_neg hws, addToken_eq _ h0]
    by_cases hlen : limits.maxKeyLength.toNat < (trim f).length
    · rw [if_pos hlen]
      exact Option.some_ne_none _
    rw [if_neg hlen]
    rw [offence, if_neg hws, if_neg hlen, Option.none_or] at hoff
    cases pendingAddUnique alloc (st.tp.getD tp₀) ⟨digest (trim f), (st.tp.getD tp₀).publicationSeq⟩
        limits.maxKeysPerObject.toNat with
    | error e => exact Option.some_ne_none _
    | ok tp' => exact @ih ⟨some tp', false⟩ rfl hoff

end Add
/-! ### Both -/

section
variable (limits : Limits) (digest : Bytes → Digest)

/-- The fields of a header. A header that is missing has none. -/
def headerFields (header sep : Option Bytes) : List Bytes :=
  match header with
  | none | some [] => []
  | some header => fields (separator sep) header

/-- Why a header is rejected, if it is. -/
def rejection (header sep : Option Bytes) : Option Reason :=
  if limits.maxHeaderBytes.toNat < (header.getD []).length then some .headerTooLarge
  else firstOffence limits (headerFields header sep)

/-- The tags of a header, up to a token that offends. -/
def headerTags (header sep : Option Bytes) : List Digest :=
  if limits.maxHeaderBytes.toNat < (header.getD []).length then []
  else (goodTokens limits (headerFields header sep)).map digest

end

theorem separator_ne (sep : Option Bytes) : separator sep ≠ [] := by
  unfold separator
  split
  · exact List.cons_ne_nil _ _
  · exact List.cons_ne_nil _ _
  · rename_i h
    exact h

section Both
variable {limits : Limits} {digest : Bytes → Digest} {alloc : Nat → Bool} {fetch : Fetch} {tp₀ : Pending}

/-- What the two tokenisers make of one header. `tp₀` is the registration as it was before. -/
structure Agree (limits : Limits) (digest : Bytes → Digest) (tp₀ : Pending) (header sep : Option Bytes)
    (add : Option Pending × Option AddFault) (purge : HeaderPurge) : Prop where
  /-- they reject for the same reasons, unless the tags before do not fit in -/
  rejects : ∀ r, rejection limits header sep = some r → purge = .rejected r.purge ∧ add.2 ≠ none ∧
    (tagCount tp₀.digests (headerTags limits digest header sep) ≤ limits.maxKeysPerObject.toNat → add.2 = some r.add)
  /-- and else have the same tags -/
  accepts : rejection limits header sep = none → ∃ keys : List Digest,
    purge = (if keys = [] then .nothing else .batch keys) ∧
    keys.Pairwise (fun ka kb => purgeKeyCompare ka kb < 0) ∧
    (∀ d, d ∈ keys ↔ d ∈ headerTags limits digest header sep) ∧
    (tagCount tp₀.digests keys ≤ limits.maxKeysPerObject.toNat → add.2 = none ∧
      ∀ d, d ∈ (add.1.getD tp₀).digests ↔ d ∈ tp₀.digests ∨ d ∈ keys)

theorem tagCount_congr {l ds ds' : List Digest} (h : ∀ d, d ∈ ds ↔ d ∈ ds') : tagCount l ds = tagCount l ds' := by
  have hset : ds.toFinset = ds'.toFinset := Finset.ext fun d => by simpa using h d
  rw [tagCount, tagCount, hset]

/-- What a loop that ends leaves is what its visits leave. -/
theorem Agree.of_visits (halloc : ∀ n, alloc n = true) (hbegin : addBegin fetch = .ok (some tp₀))
    {header : Bytes} {sep : Option Bytes} (hne : header ≠ []) (hsize : header.length ≤ limits.maxHeaderBytes.toNat)
    {cap : Nat} (hcap : visits (purgeField limits alloc) (fields (separator sep) header) ⟨[], 64⟩ =
      (⟨goodTokens limits (fields (separator sep) header), cap⟩,
        (firstOffence limits (fields (separator sep) header)).map Reason.purge)) :
    Agree limits digest tp₀ (some header) sep
      ((visits (addField limits digest alloc fetch) (fields (separator sep) header) ⟨none, false⟩).1.tp,
        (visits (addField limits digest alloc fetch) (fields (separator sep) header) ⟨none, false⟩).2)
      (match visits (purgeField limits alloc) (fields (separator sep) header) ⟨[], 64⟩ with
        | (_, some f) => .rejected f
        | (v, none) => purgeTokens limits digest alloc v.tokens) := by
  -- In terms of the walk over the fields: what is rejected, and what the tags are.
  have hfields : headerFields (some header) sep = fields (separator sep) header := by
    unfold headerFields
    split
    · rename_i h
      cases h
    · rename_i h
      exact absurd (Option.some.inj h) hne
    · rename_i h
      cases h
      rfl
  have hrej : rejection limits (some header) sep = firstOffence limits (fields (separator sep) header) := by
    rw [rejection, Option.getD_some, if_neg (Nat.not_lt.mpr hsize), hfields]
  have htags : headerTags limits digest (some header) sep =
      (goodTokens limits (fields (separator sep) header)).map digest := by
    rw [headerTags, Option.getD_some, if_neg (Nat.not_lt.mpr hsize), hfields]
  have hadd := @visits_addField limits digest _ _ (fields (separator sep) header) _ halloc hbegin ⟨none, false⟩ rfl
  rw [Option.getD_none] at hadd
  rw [hcap]
  refine ⟨fun r hr => ?_, fun hnone => ?_⟩
  · rw [hrej] at hr
    rw [hr, htags]
    refine ⟨rfl, visits_addField_fails hbegin rfl (by rw [hr]; exact Option.some_ne_none r), fun hfits => ?_⟩
    rw [(hadd hfits).fault, hr]
    rfl
  · rw [hrej] at hnone
    rw [hnone, htags]
    refine ⟨sortedKeys ((goodTokens limits (fields (separator sep) header)).map digest), ?_, sortedKeys_spec.1,
      sortedKeys_spec.2, fun hfits => ?_⟩
    · show purgeTokens limits digest alloc (goodTokens limits (fields (separator sep) header)) = _
      rw [purgeTokens_eq halloc]
      -- The vector is empty if and only if the set of its digests is.
      have hnil : sortedKeys ((goodTokens limits (fields (separator sep) header)).map digest) = [] ↔
          goodTokens limits (fields (separator sep) header) = [] := by
        rw [← List.map_eq_nil_iff (f := digest), List.eq_nil_iff_forall_not_mem, List.eq_nil_iff_forall_not_mem]
        exact forall_congr' fun d => not_congr (sortedKeys_spec.2 d)
      simp only [hnil]
    · rw [tagCount_congr sortedKeys_spec.2] at hfits
      obtain ⟨hfault, hset⟩ := hadd hfits
      refine ⟨by rw [hfault, hnone]; rfl, fun d => ?_⟩
      rw [sortedKeys_spec.2, ← List.mem_toFinset, hset, Finset.mem_union, List.mem_toFinset, List.mem_toFinset]
      rfl

theorem Agree.nothing {header sep : Option Bytes} (h : header = none ∨ header = some []) :
    Agree limits digest tp₀ header sep (none, none) .nothing := by
  have hlen : ¬limits.maxHeaderBytes.toNat < (header.getD []).length := by
    rcases h with rfl | rfl <;> exact Nat.not_lt_zero _
  have hfields : headerFields header sep = [] := by
    rcases h with rfl | rfl <;> rfl
  have hrej : rejection limits header sep = none := by rw [rejection, if_neg hlen, hfields]; rfl
  have htags : headerTags limits digest header sep = [] := by rw [headerTags, if_neg hlen, hfields]; rfl
  refine ⟨fun r hr => ?_, fun _ => ⟨[], rfl, List.Pairwise.nil, fun d => by rw [htags], fun _ => ⟨rfl, fun d => ?_⟩⟩⟩
  · rw [hrej] at hr
    cases hr
  · exact (or_iff_left List.not_mem_nil).symm

theorem Agree.tooLarge {header : Bytes} {sep : Option Bytes} (h : limits.maxHeaderBytes.toNat < header.length) :
    Agree limits digest tp₀ (some header) sep (none, some .headerTooLarge) (.rejected .headerTooLarge) := by
  have hrej : rejection limits (some header) sep = some .headerTooLarge := if_pos h
  refine ⟨fun r hr => ?_, fun hnone => ?_⟩
  · cases hrej.symm.trans hr
    exact ⟨rfl, Option.some_ne_none _, fun _ => rfl⟩
  · rw [hrej] at hnone
    cases hnone

/-- A header that is to be rejected is rejected before any of its tags is passed on, whatever is allocated. -/
theorem purgeHeaderTokens_rejects {fuel : Nat} {header sep : Option Bytes} {h : HeaderPurge}
    (hrej : rejection limits header sep ≠ none) (hrun : purgeHeaderTokens limits digest alloc fuel header sep = some h) :
    ∃ f, h = .rejected f := by
  unfold purgeHeaderTokens at hrun
  split at hrun
  · exact absurd rfl hrej
  · exact absurd rfl hrej
  · rename_i header hne
    split at hrun
    · cases hrun
      exact ⟨_, rfl⟩
    rename_i hlarge
    have hfields : headerFields (some header) sep = fields (separator sep) header := by
      unfold headerFields
      split
      · rename_i h
        cases h
      · rename_i h
        cases h
        exact absurd rfl hne
      · rename_i h
        cases h
        rfl
    rw [rejection, Option.getD_some, if_neg hlarge, hfields] at hrej
    split at hrun
    · cases hrun
      exact ⟨_, rfl⟩
    obtain ⟨⟨v, f⟩, hr, hmatch⟩ := Option.map_eq_some_iff.mp hrun
    have hfails := @visits_purgeField_fails _ alloc _ ⟨[], 64⟩ hrej
    rw [← scan_some (separator_ne sep) hr] at hfails
    cases f with
    | none => exact absurd rfl hfails
    | some f => exact ⟨f, hmatch.symm⟩

/-- A purge of tags hits whatever was registered with one of them before. -/
theorem batch_hits {cfg : Purgemap.Config} {env : Purgemap.Env} {s : Purgemap.History} {keys : List Digest}
    {mode : PurgeMode} {p : Purgemap.Purged}
    (hs : Machine.Reach (Purgemap.History.step cfg) Machine.always Purgemap.History.init s)
    (hp : Purgemap.purgeBatch cfg env s.map keys mode = .ok p) (hacc : p.reply = .accepted) {regSeq : Nat}
    (hreg : regSeq ≤ s.map.seq) {tags : List Digest} {d : Digest} (hd : d ∈ keys) (htag : d ∈ tags) :
    ∃ v, Purgemap.probe p.map regSeq (tags.map fun d => (foldDigest d).val) = some v ∧
      (v = .hard ∨ mode = .soft ∧ v = .soft) := by
  have hstep : Purgemap.History.step cfg s (.purgeBatch keys mode env) = some (s.answered p (keys.map foldDigest) mode) := by
    simp only [Purgemap.History.step, hp]
  have hinv := Purgemap.History.reach_inv (hs.trans (.step _ .init trivial hstep))
  have hlog : (s.answered p (keys.map foldDigest) mode).log =
      Purgemap.logged s.log (s.map.seq + 1) (keys.map foldDigest) mode := if_pos hacc
  have hmem : (⟨s.map.seq + 1, (foldDigest d).val, mode⟩ : Purgemap.Purge) ∈
      (s.answered p (keys.map foldDigest) mode).log := by
    rw [hlog]
    exact List.mem_append_right _ (List.mem_map.mpr ⟨foldDigest d, List.mem_map.mpr ⟨d, hd, rfl⟩, rfl⟩)
  have hfold : (foldDigest d).val ∈ (tags.map foldDigest).map Fold.val := by
    rw [List.map_map]
    exact List.mem_map.mpr ⟨d, htag, rfl⟩
  have hprobe := @Purgemap.probe_spec _ regSeq (tags.map foldDigest) hinv.wf
  have hle := (hinv.sound.represents.verdict regSeq ((tags.map foldDigest).map Fold.val)).1
  rw [List.map_map] at hprobe
  refine ⟨_, hprobe, ?_⟩
  rw [List.map_map] at hle
  generalize Purgemap.mapVerdict _ _ _ _ _ = v at hle ⊢
  unfold Purgemap.logVerdict at hle
  rw [List.map_map] at hfold
  cases mode with
  | hard =>
    rw [if_pos ⟨_, hmem, rfl, hfold, Nat.lt_succ_of_le hreg⟩] at hle
    cases v <;> simp_all [Purgemap.strength]
  | soft =>
    split at hle
    · cases v <;> simp_all [Purgemap.strength]
    · rw [if_pos ⟨_, hmem, rfl, hfold, Nat.lt_succ_of_le hreg⟩] at hle
      cases v <;> simp_all [Purgemap.strength]

/-- Both tokenisers come to an end for every header and separator, and agree; and an accepted purge with a
    header hits every object that was registered with it before, by one tag of it or more. -/
theorem tokenisers_agree (halloc : ∀ n, alloc n = true) (hbegin : addBegin fetch = .ok (some tp₀))
    (header sep : Option Bytes) :
    ∃ add purge, Agree limits digest tp₀ header sep add purge ∧
      (∀ fuel, (header.getD []).length < fuel → parseAdd limits digest alloc fuel fetch header sep = some add ∧
        purgeHeaderTokens limits digest alloc fuel header sep = some purge) ∧
      ∀ keys, purge = .batch keys → tagCount tp₀.digests keys ≤ limits.maxKeysPerObject.toNat →
        ∀ cfg env s mode p, Machine.Reach (Purgemap.History.step cfg) Machine.always Purgemap.History.init s →
        Purgemap.purgeBatch cfg env s.map keys mode = .ok p → p.reply = .accepted → ∀ regSeq, regSeq ≤ s.map.seq →
        ∃ v, Purgemap.probe p.map regSeq ((add.1.getD tp₀).digests.map fun d => (foldDigest d).val) = some v ∧
          (v = .hard ∨ mode = .soft ∧ v = .soft) := by
  obtain ⟨add, purge, hagree, hends⟩ : ∃ add purge, Agree limits digest tp₀ header sep add purge ∧
      ∀ fuel, (header.getD []).length < fuel → parseAdd limits digest alloc fuel fetch header sep = some add ∧
        purgeHeaderTokens limits digest alloc fuel header sep = some purge := by
    match header with
    | none => exact ⟨_, _, .nothing (.inl rfl), fun fuel _ => ⟨rfl, rfl⟩⟩
    | some [] => exact ⟨_, _, .nothing (.inr rfl), fun fuel _ => ⟨rfl, rfl⟩⟩
    | some (b :: l) =>
      by_cases hlarge : limits.maxHeaderBytes.toNat < (b :: l).length
      · refine ⟨_, _, .tooLarge hlarge, fun fuel _ => ⟨?_, ?_⟩⟩
        · simp only [parseAdd, if_pos hlarge]
        · simp only [purgeHeaderTokens, if_pos hlarge]
      -- Both loops are walks over the fields of the header, as a separator is not empty.
      · have hsep := separator_ne sep
        have hfew : (TokenVector.mk [] 64).tokens.length + (fields (separator sep) (b :: l)).length ≤ 2 ^ 32 := by
          have h1 := length_fields_le hsep (b :: l)
          have h2 := limits.maxHeaderBytes.toNat_lt
          show 0 + _ ≤ _
          omega
        obtain ⟨cap, hcap⟩ := @visits_purgeField limits _ _ _ halloc hfew
        refine ⟨_, _, .of_visits halloc hbegin (List.cons_ne_nil b l) (Nat.le_of_not_lt hlarge) hcap,
          fun fuel (hf : (b :: l).length < fuel) => ⟨?_, ?_⟩⟩
        · simp only [parseAdd, if_neg hlarge]
          rw [scan_eq _ hsep hf]
          rfl
        · simp only [purgeHeaderTokens, if_neg hlarge, halloc, Bool.not_true, Bool.false_eq_true, if_false]
          rw [scan_eq _ hsep hf]
          rfl
  refine ⟨add, purge, hagree, hends, fun keys hbatch hfits cfg env s mode p hs hp hacc regSeq hreg => ?_⟩
  cases hrej : rejection limits header sep with
  | some r =>
    have := (hagree.rejects r hrej).1
    rw [hbatch] at this
    cases this
  | none =>
    obtain ⟨keys', hpurge, -, -, hsame⟩ := hagree.accepts hrej
    rw [hbatch] at hpurge
    split at hpurge
    · cases hpurge
    · rename_i hne
      cases hpurge
      -- An accepted batch has a digest, and each of its digests is one of the object.
      obtain ⟨d, hd⟩ := List.exists_mem_of_ne_nil keys hne
      exact batch_hits hs hp hacc hreg hd (((hsame hfits).2 d).mpr (.inr hd))

end Both

/-- A namespace with the default limits. -/
def plainLimits : Limits := ⟨512, 1024, 16384⟩

/-- The keys of one letter, told apart by it. -/
def plainDigest (key : Bytes) : Digest := ⟨0, (key.headD 0).toUInt64⟩

/-- A fetch that has not registered anything yet. -/
def plainFetch : Fetch := ⟨false, true, true, some .init, some 0⟩

/-- The header `b, a,,b`, registered and purged. -/
theorem tokenisers_agree_plain : ∃ add, Agree plainLimits plainDigest { Pending.init with publicationHeld := true }
      (some [98, 44, 32, 97, 44, 44, 98]) none add (.batch [⟨0, 97⟩, ⟨0, 98⟩]) ∧
    ∃ p, Purgemap.purgeBatch ⟨0, false⟩ .ok .init [⟨0, 97⟩, ⟨0, 98⟩] .hard = .ok p ∧
      ∃ v, Purgemap.probe p.map 0 ((add.1.getD { Pending.init with publicationHeld := true }).digests.map
        fun d => (foldDigest d).val) = some v ∧ (v = .hard ∨ PurgeMode.hard = .soft ∧ v = .soft) := by
  obtain ⟨add, purge, hagree, hends, hhits⟩ := @tokenisers_agree plainLimits plainDigest
    (fun _ => true) plainFetch _ (fun _ => rfl) rfl (some [98, 44, 32, 97, 44, 44, 98]) none
  have hrun : purgeHeaderTokens plainLimits plainDigest (fun _ => true) 10 (some [98, 44, 32, 97, 44, 44, 98]) none =
      some (.batch [⟨0, 97⟩, ⟨0, 98⟩]) := by decide +kernel
  obtain rfl : purge = .batch [⟨0, 97⟩, ⟨0, 98⟩] := Option.some.inj ((hends 10 (by decide)).2.symm.trans hrun)
  have hpurge : ((Purgemap.purgeBatch ⟨0, false⟩ .ok .init [⟨0, 97⟩, ⟨0, 98⟩] .hard).toOption.map (·.reply)) =
      some .accepted := by decide +kernel
  cases hp : Purgemap.purgeBatch ⟨0, false⟩ .ok .init [⟨0, 97⟩, ⟨0, 98⟩] .hard with
  | error f =>
    rw [hp] at hpurge
    cases hpurge
  | ok p =>
    rw [hp] at hpurge
    exact ⟨add, hagree, p, rfl, hhits _ rfl (by decide) ⟨0, false⟩ .ok .init .hard p .init hp (Option.some.inj hpurge) 0
      (Nat.le_refl _)⟩

end Cachetag.Header
