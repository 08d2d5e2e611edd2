import Cachetag.Lib.Frames
import Cachetag.Lib.LittleEndian
import Cachetag.Purgemap.Table

/-! The records of the log of `src/vmod_cachetag_wal.c` and the frames that hold them in a segment file.

The checksum is a parameter. Only what `cachetag_wal_append` writes is a frame that it wrote, but a reader
takes every frame whose checksum fits: bytes 6 and 7 of a header may be anything. -/

namespace Cachetag.Wal
open Frames

abbrev Bytes := List UInt8

/-- `SIZE_MAX` -/
def sizeMax : Nat := 2 ^ 64 - 1

/-- `TAG_WAL_HEADER_LEN` -/
def headerLen : Nat := 32

/-- `TAG_WAL_HEADER_CSUM` -/
def headerCsum : Nat := 24

/-- `"VTW1"` -/
def magic : Bytes := [86, 84, 87, 49]

/-- `cachetag_le64enc` -/
def le64enc (v : Nat) : Bytes := LittleEndian.enc 8 v

/-- `cachetag_le64dec` -/
def le64dec (p : Bytes) : Nat := LittleEndian.dec (p.take 8)

theorem length_le64enc (v : Nat) : (le64enc v).length = 8 := LittleEndian.length_enc

theorem le64dec_enc {v : Nat} (h : v ≤ u64Max) (p : Bytes) : le64dec (le64enc v ++ p) = v := by
  rw [le64dec, List.take_left' (length_le64enc v)]
  exact LittleEndian.dec_enc (by unfold u64Max at h; norm_num; omega)

theorem le64dec_le (p : Bytes) : le64dec p ≤ u64Max := by
  have h := LittleEndian.dec_lt (l := p.take 8)
  have hpow : 256 ^ (p.take 8).length ≤ 256 ^ 8 := Nat.pow_le_pow_right (by norm_num) (List.length_take_le _ _)
  have : le64dec p < 256 ^ 8 := lt_of_lt_of_le h hpow
  unfold u64Max
  norm_num at this
  omega

/-- What a file holds. Its size is an `off_t`. -/
structure File where
  bytes : Bytes
  fits : bytes.length < 2 ^ 63

def File.empty : File := ⟨[], by norm_num⟩

/-- `struct cachetag_wal_record` -/
structure Record where
  type : UInt8
  sequence : Nat
  payload : Bytes
deriving DecidableEq, Repr

section
variable (csum : Bytes → UInt64)

/-- `cachetag_wal_record_checksum` -/
def recordChecksum (hdr payload : Bytes) : UInt64 := csum (hdr.take headerCsum ++ payload)

/-- The header in front of a payload, as `cachetag_wal_append` fills it in. -/
def header (type : UInt8) (seq : Nat) (payload : Bytes) : Bytes :=
  let hdr := magic ++ [1, type, 0, 0] ++ le64enc seq ++ le64enc payload.length
  hdr ++ le64enc (recordChecksum csum hdr payload).toNat

/-- The header of a record that a reader takes. -/
structure IsHeader (hdr : Bytes) (r : Record) : Prop where
  length : hdr.length = headerLen
  magic : hdr.take 4 = Wal.magic
  version : hdr[4]? = some 1
  type : hdr[5]? = some r.type
  sequence : le64dec (hdr.drop 8) = r.sequence
  payloadLen : le64dec (hdr.drop 16) = r.payload.length
  checksum : le64dec (hdr.drop headerCsum) = (recordChecksum csum hdr r.payload).toNat

/-- The frames of a segment file: a header and the whole payload behind it. -/
def frames : Format UInt8 Record where
  Frame b r := ∃ hdr, IsHeader csum hdr r ∧ b = hdr ++ r.payload
  num r := r.sequence
  nonempty := by
    rintro _ r ⟨hdr, h, rfl⟩ hnil
    have hlen := h.length
    rw [(List.append_eq_nil_iff.mp hnil).1] at hlen
    cases hlen
  unique := by
    rintro _ _ x y r r' ⟨hdr, h, rfl⟩ ⟨hdr', h', rfl⟩ heq
    rw [List.append_assoc, List.append_assoc] at heq
    obtain ⟨rfl, hrest⟩ := List.append_inj heq (h.length.trans h'.length.symm)
    obtain ⟨hpay, -⟩ := List.append_inj hrest (h.payloadLen.symm.trans h'.payloadLen)
    have htype := Option.some.inj (h.type.symm.trans h'.type)
    have hseq := h.sequence.symm.trans h'.sequence
    cases r
    cases r'
    cases htype
    cases hseq
    cases hpay
    exact ⟨rfl, rfl⟩

variable {csum}

theorem length_header (type : UInt8) (seq : Nat) (payload : Bytes) : (header csum type seq payload).length = headerLen := by
  simp [header, magic, length_le64enc, headerLen]

/-- What is appended is a frame of the record. -/
theorem header_isHeader {type : UInt8} {seq : Nat} {payload : Bytes} (hseq : seq ≤ u64Max)
    (hlen : payload.length ≤ u64Max) : IsHeader csum (header csum type seq payload) ⟨type, seq, payload⟩ where
  length := length_header type seq payload
  magic := rfl
  version := rfl
  type := rfl
  sequence := by
    have : (header csum type seq payload).drop 8 = le64enc seq ++ (header csum type seq payload).drop 16 := by
      simp [header, Wal.magic, length_le64enc, List.drop_append]
    rw [this, le64dec_enc hseq]
  payloadLen := by
    have : (header csum type seq payload).drop 16 = le64enc payload.length ++ (header csum type seq payload).drop 24 := by
      simp [header, Wal.magic, length_le64enc, List.drop_append]
    rw [this, le64dec_enc hlen]
  checksum := by
    have htake : (header csum type seq payload).take headerCsum =
        Wal.magic ++ [1, type, 0, 0] ++ le64enc seq ++ le64enc payload.length := by
      rw [header, List.take_left' (by simp [Wal.magic, length_le64enc, headerCsum])]
    have hdrop : (header csum type seq payload).drop headerCsum =
        le64enc (recordChecksum csum (header csum type seq payload) payload).toNat := by
      rw [recordChecksum, htake, header, List.drop_left' (by simp [Wal.magic, length_le64enc, headerCsum]),
        recordChecksum, List.take_of_length_le (by simp [Wal.magic, length_le64enc, headerCsum])]
    rw [hdrop, ← List.append_nil (le64enc _), le64dec_enc]
    have := (recordChecksum csum (header csum type seq payload) payload).toNat_lt
    unfold u64Max
    omega

theorem IsHeader.sequence_le {hdr : Bytes} {r : Record} (h : IsHeader csum hdr r) : r.sequence ≤ u64Max :=
  h.sequence ▸ le64dec_le _

end
end Cachetag.Wal
