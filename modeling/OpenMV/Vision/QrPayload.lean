import OpenMV.Schemes.PrefixCode
import OpenMV.Vision.QrStream

/-! The payload of QR codes | scheme:codec | source:src/src/openmv/omv/img/qrcode.c

    The data bytes are a row of segments: digits, letters, bytes or characters of two bytes, each with its type and its
    length before it. `decode_payload` puts what they mean together, until a type that it does not know. -/

namespace OpenMV.Vision
open Schemes

/-! ### The code -/

/-- `struct quirc_data`; the payload is as long as `payload_len` says. -/
structure QuircData where
  version : ℕ
  eccLevel : ℕ
  mask : ℕ
  dataType : ℕ
  payload : List (BitVec 8)
  eci : ℕ

/-- `data`, `data_bits` and `ptr` of the stream. -/
structure Datastream where
  data : ℕ → BitVec 8
  dataBits : ℕ
  ptr : ℕ

section Code

def bitsRemaining (ds : Datastream) : ℕ := ds.dataBits - ds.ptr

/-- The loop of `take_bits`, which ends where the data do. -/
def takeBitsLoop (ds : Datastream) : ℕ → ℕ → ℕ × Datastream
  | 0, ret => (ret, ds)
  | len + 1, ret =>
    if ds.ptr < ds.dataBits then
      let b := ds.data (ds.ptr / 8)
      let bitpos := ds.ptr % 8
      takeBitsLoop { ds with ptr := ds.ptr + 1 } len (2 * ret + (b <<< bitpos &&& 0x80#8 != 0#8).toNat)
    else (ret, ds)

def takeBits (ds : Datastream) (len : ℕ) : ℕ × Datastream := takeBitsLoop ds len 0

/-- `bits` of the length before a segment. -/
def lengthBits (version small medium large : ℕ) : ℕ :=
  if version < 10 then small else if version < 27 then medium else large

/-- The characters of a tuple; the last one is found first. -/
def tupleChars (base : ℕ) (char : ℕ → BitVec 8) : ℕ → ℕ → List (BitVec 8)
  | 0, _ => []
  | digits + 1, tuple => tupleChars base char digits (tuple / base) ++ [char (tuple % base)]

def digitChar (d : ℕ) : BitVec 8 := BitVec.ofNat 8 (d + '0'.toNat)

def alphaMap : List Char := "0123456789ABCDEFGHIJKLMNOPQRSTUVWXYZ $%*+-./:".toList

def alphaChar (d : ℕ) : BitVec 8 := BitVec.ofNat 8 (alphaMap.getD d '0').toNat

/-- `numeric_tuple` and `alpha_tuple` -/
def decodeTuple (base : ℕ) (char : ℕ → BitVec 8) (bits digits : ℕ) (data : QuircData) (ds : Datastream) :
    Except QuircError (QuircData × Datastream) :=
  if bitsRemaining ds < bits then .error .dataUnderflow
  else
    let (tuple, ds) := takeBits ds bits
    .ok ({ data with payload := data.payload ++ tupleChars base char digits tuple }, ds)

def numericTuple : ℕ → ℕ → QuircData → Datastream → Except QuircError (QuircData × Datastream) :=
  decodeTuple 10 digitChar

def alphaTuple : ℕ → ℕ → QuircData → Datastream → Except QuircError (QuircData × Datastream) :=
  decodeTuple 45 alphaChar

/-- The loop of `decode_numeric` and what comes after it. -/
def numericLoop : ℕ → QuircData → Datastream → Except QuircError (QuircData × Datastream)
  | count + 3, data, ds => do
    let (data, ds) ← numericTuple 10 3 data ds
    numericLoop count data ds
  | 2, data, ds => numericTuple 7 2 data ds
  | 1, data, ds => numericTuple 4 1 data ds
  | 0, data, ds => .ok (data, ds)

def decodeNumeric (data : QuircData) (ds : Datastream) : Except QuircError (QuircData × Datastream) :=
  let (count, ds) := takeBits ds (lengthBits data.version 10 12 14)
  if data.payload.length + count + 1 > quircMaxPayload then .error .dataOverflow else numericLoop count data ds

def alphaLoop : ℕ → QuircData → Datastream → Except QuircError (QuircData × Datastream)
  | count + 2, data, ds => do
    let (data, ds) ← alphaTuple 11 2 data ds
    alphaLoop count data ds
  | 1, data, ds => alphaTuple 6 1 data ds
  | 0, data, ds => .ok (data, ds)

def decodeAlpha (data : QuircData) (ds : Datastream) : Except QuircError (QuircData × Datastream) :=
  let (count, ds) := takeBits ds (lengthBits data.version 9 11 13)
  if data.payload.length + count + 1 > quircMaxPayload then .error .dataOverflow else alphaLoop count data ds

def byteLoop : ℕ → QuircData → Datastream → QuircData × Datastream
  | 0, data, ds => (data, ds)
  | count + 1, data, ds =>
    let (b, ds) := takeBits ds 8
    byteLoop count { data with payload := data.payload ++ [BitVec.ofNat 8 b] } ds

def decodeByte (data : QuircData) (ds : Datastream) : Except QuircError (QuircData × Datastream) :=
  let (count, ds) := takeBits ds (lengthBits data.version 8 16 16)
  if data.payload.length + count + 1 > quircMaxPayload then .error .dataOverflow
  else if bitsRemaining ds < count * 8 then .error .dataUnderflow
  else .ok (byteLoop count data ds)

/-- `sjw` -/
def kanjiWord (d : ℕ) : BitVec 16 :=
  let msB := d / 0xc0
  let lsB := d % 0xc0
  let intermediate := msB <<< 8 ||| lsB
  if intermediate + 0x8140 ≤ 0x9ffc then BitVec.ofNat 16 (intermediate + 0x8140)
  else BitVec.ofNat 16 (intermediate + 0xc140)

def kanjiLoop : ℕ → QuircData → Datastream → QuircData × Datastream
  | 0, data, ds => (data, ds)
  | count + 1, data, ds =>
    let (d, ds) := takeBits ds 13
    let sjw := kanjiWord d
    kanjiLoop count { data with payload := data.payload ++ [(sjw >>> 8).setWidth 8, sjw.setWidth 8] } ds

def decodeKanji (data : QuircData) (ds : Datastream) : Except QuircError (QuircData × Datastream) :=
  let (count, ds) := takeBits ds (lengthBits data.version 8 10 12)
  if data.payload.length + count * 2 + 1 > quircMaxPayload then .error .dataOverflow
  else if bitsRemaining ds < count * 13 then .error .dataUnderflow
  else .ok (kanjiLoop count data ds)

def decodeEci (data : QuircData) (ds : Datastream) : Except QuircError (QuircData × Datastream) :=
  if bitsRemaining ds < 8 then .error .dataUnderflow
  else
    let (eci, ds) := takeBits ds 8
    if eci &&& 0xc0 = 0x80 then
      if bitsRemaining ds < 8 then .error .dataUnderflow
      else
        let (more, ds) := takeBits ds 8
        .ok ({ data with eci := eci <<< 8 ||| more }, ds)
    else if eci &&& 0xe0 = 0xc0 then
      if bitsRemaining ds < 16 then .error .dataUnderflow
      else
        let (more, ds) := takeBits ds 16
        .ok ({ data with eci := eci <<< 16 ||| more }, ds)
    else .ok ({ data with eci := eci }, ds)

/-- The `switch` of `decode_payload`; there is nothing to decode after a type that is not known. -/
def decodeSegment (type : ℕ) (data : QuircData) (ds : Datastream) :
    Option (Except QuircError (QuircData × Datastream)) :=
  match type with
  | 1 => some (decodeNumeric data ds)
  | 2 => some (decodeAlpha data ds)
  | 4 => some (decodeByte data ds)
  | 8 => some (decodeKanji data ds)
  | 7 => some (decodeEci data ds)
  | _ => none

/-- The loop of `decode_payload`. -/
def payloadLoop : ℕ → QuircData → Datastream → Option (Except QuircError (QuircData × Datastream))
  | 0, _, _ => none
  | fuel + 1, data, ds =>
    if bitsRemaining ds ≥ 4 then
      let (type, ds) := takeBits ds 4
      match decodeSegment type data ds with
      | none => some (.ok (data, ds))
      | some (.error err) => some (.error err)
      | some (.ok (data, ds)) =>
        let data := if type &&& (type - 1) = 0 ∧ type > data.dataType then { data with dataType := type } else data
        payloadLoop fuel data ds
    else some (.ok (data, ds))

/-- The payload, without the nul behind it. -/
def decodePayload (fuel : ℕ) (data : QuircData) (ds : Datastream) : Option (Except QuircError QuircData) :=
  match payloadLoop fuel data ds with
  | none => none
  | some (.error err) => some (.error err)
  | some (.ok (data, _)) =>
    some (.ok (if data.payload.length ≥ quircMaxPayload then { data with payload := data.payload.dropLast } else data))

end Code

/-! ### Taking bits -/

/-- What has not been taken yet. -/
def Datastream.bits (ds : Datastream) : List Bool := bitsFrom ds.data ds.ptr (bitsRemaining ds)

def Datastream.skip (ds : Datastream) (len : ℕ) : Datastream := { ds with ptr := ds.ptr + min len (bitsRemaining ds) }

@[simp] theorem Datastream.length_bits (ds : Datastream) : ds.bits.length = bitsRemaining ds := length_bitsFrom ..

@[simp] theorem Datastream.bits_skip (ds : Datastream) (len : ℕ) : (ds.skip len).bits = ds.bits.drop len := by
  rw [Datastream.bits, Datastream.bits, drop_bitsFrom]
  congr 1
  simp only [Datastream.skip, bitsRemaining]
  omega

theorem takeBitsLoop_eq (len : ℕ) : ∀ (ds : Datastream) (ret : ℕ), takeBitsLoop ds len ret =
    ((ds.bits.take len).foldl (fun a b => 2 * a + b.toNat) ret, ds.skip len) := by
  induction len with
  | zero => intro ds ret; simp [takeBitsLoop, Datastream.skip]
  | succ len ih =>
    intro ds ret
    rw [takeBitsLoop]
    split
    case isTrue hlt =>
      have hbits : ds.bits = byteBit ds.data ds.ptr :: { ds with ptr := ds.ptr + 1 : Datastream }.bits := by
        rw [Datastream.bits, Datastream.bits, ← bitsFrom_succ]
        congr 1
        simp only [bitsRemaining]
        omega
      rw [ih, hbits, List.take_succ_cons, List.foldl_cons, shift_and_eq_byteBit]
      congr 1
      simp only [Datastream.skip, bitsRemaining, Datastream.mk.injEq, true_and]
      omega
    case isFalse hge =>
      have hnone : bitsRemaining ds = 0 := Nat.sub_eq_zero_of_le (Nat.le_of_not_lt hge)
      have hbits : ds.bits = [] := List.length_eq_zero_iff.mp (by rw [Datastream.length_bits, hnone])
      rw [hbits, Datastream.skip, hnone]
      simp

theorem takeBits_eq (ds : Datastream) (len : ℕ) : takeBits ds len = (ofBits (ds.bits.take len), ds.skip len) :=
  takeBitsLoop_eq len ds 0

/-- A number that comes next is taken. -/
theorem takeBits_bitsOf {ds : Datastream} {len n : ℕ} {rest : List Bool} (hbits : ds.bits = bitsOf len n ++ rest)
    (hn : n < 2 ^ len) : takeBits ds len = (n, ds.skip len) ∧ (ds.skip len).bits = rest := by
  have hlen := length_bitsOf len n
  rw [takeBits_eq, Datastream.bits_skip, hbits, List.take_left' hlen, List.drop_left' hlen, ofBits_bitsOf hn]
  exact ⟨rfl, rfl⟩

/-! ### Whatever comes -/

/-- What does not change. -/
def QuircData.format (data : QuircData) : ℕ × ℕ × ℕ := (data.version, data.eccLevel, data.mask)

/-- The payload and a nul fit, and bits are only taken away. -/
def Kept (data : QuircData) (ds : Datastream) (r : QuircData × Datastream) : Prop :=
  r.1.format = data.format ∧ r.1.payload.length < quircMaxPayload ∧ r.2.bits <:+ ds.bits

section Sound
variable {data data' : QuircData} {ds ds' : Datastream}

theorem skip_suffix (ds : Datastream) (len : ℕ) : (ds.skip len).bits <:+ ds.bits := by
  rw [Datastream.bits_skip]
  exact List.drop_suffix ..

theorem length_tupleChars (base : ℕ) (char : ℕ → BitVec 8) (digits tuple : ℕ) :
    (tupleChars base char digits tuple).length = digits := by
  induction digits generalizing tuple with
  | zero => rfl
  | succ digits ih => rw [tupleChars, List.length_append, ih, List.length_singleton]

/-- The payload has `n` bytes more, and bits are only taken away. -/
structure Adds (n : ℕ) (data : QuircData) (ds : Datastream) (r : QuircData × Datastream) : Prop where
  format : r.1.format = data.format
  length : r.1.payload.length = data.payload.length + n
  bits : r.2.bits <:+ ds.bits

namespace Adds
variable {n m len : ℕ} {r r' : QuircData × Datastream}

theorem refl (data : QuircData) (ds : Datastream) : Adds 0 data ds (data, ds) := ⟨rfl, rfl, List.suffix_rfl⟩

theorem take (data : QuircData) (ds : Datastream) (len : ℕ) (s : List (BitVec 8)) :
    Adds s.length data ds ({ data with payload := data.payload ++ s }, ds.skip len) :=
  ⟨rfl, List.length_append, skip_suffix ds len⟩

theorem trans (h : Adds n data ds r) (h' : Adds m r.1 r.2 r') : Adds (m + n) data ds r' where
  format := h'.format.trans h.format
  length := by rw [h'.length, h.length, Nat.add_assoc, Nat.add_comm n]
  bits := h'.bits.trans h.bits

theorem bind {x : Except QuircError (QuircData × Datastream)}
    {f : QuircData × Datastream → Except QuircError (QuircData × Datastream)} (hx : ∀ r, x = .ok r → Adds n data ds r)
    (hf : ∀ r, f r = .ok r' → Adds m r.1 r.2 r') (h : (x >>= f) = .ok r') : Adds (m + n) data ds r' := by
  cases x with
  | error e => cases h
  | ok r => exact (hx r rfl).trans (hf r h)

/-- With room for the bytes that the length before the segment tells. -/
theorem kept (h : Adds n data (ds.skip len) r) (hroom : ¬ data.payload.length + n + 1 > quircMaxPayload) :
    Kept data ds r :=
  ⟨h.format, by rw [h.length]; omega, h.bits.trans (skip_suffix ds len)⟩

end Adds

theorem decodeTuple_adds {base bits digits : ℕ} {char : ℕ → BitVec 8} (r : QuircData × Datastream)
    (h : decodeTuple base char bits digits data ds = .ok r) : Adds digits data ds r := by
  rw [decodeTuple, takeBits_eq] at h
  split at h
  case isTrue => cases h
  case isFalse =>
    cases h
    have htake := Adds.take data ds bits (tupleChars base char digits (ofBits (ds.bits.take bits)))
    rwa [length_tupleChars] at htake

theorem numericLoop_adds (count : ℕ) {r : QuircData × Datastream} (h : numericLoop count data ds = .ok r) :
    Adds count data ds r := by
  induction count using Nat.strong_induction_on generalizing data ds with
  | h count ih =>
    match count, ih, h with
    | 0, _, h => cases h; exact Adds.refl data ds
    | 1, _, h => exact decodeTuple_adds r h
    | 2, _, h => exact decodeTuple_adds r h
    | count + 3, ih, h => exact Adds.bind decodeTuple_adds (fun _ h => ih count (by omega) h) h

theorem alphaLoop_adds (count : ℕ) {r : QuircData × Datastream} (h : alphaLoop count data ds = .ok r) :
    Adds count data ds r := by
  induction count using Nat.strong_induction_on generalizing data ds with
  | h count ih =>
    match count, ih, h with
    | 0, _, h => cases h; exact Adds.refl data ds
    | 1, _, h => exact decodeTuple_adds r h
    | count + 2, ih, h => exact Adds.bind decodeTuple_adds (fun _ h => ih count (by omega) h) h

theorem byteLoop_adds (count : ℕ) (data : QuircData) (ds : Datastream) :
    Adds count data ds (byteLoop count data ds) := by
  induction count generalizing data ds with
  | zero => exact Adds.refl data ds
  | succ count ih =>
    rw [byteLoop, takeBits_eq]
    exact (Adds.take data ds 8 [BitVec.ofNat 8 (ofBits (ds.bits.take 8))]).trans (ih _ _)

theorem kanjiLoop_adds (count : ℕ) (data : QuircData) (ds : Datastream) :
    Adds (count * 2) data ds (kanjiLoop count data ds) := by
  induction count generalizing data ds with
  | zero => exact Adds.refl data ds
  | succ count ih =>
    rw [kanjiLoop, takeBits_eq, Nat.succ_mul]
    dsimp only
    generalize kanjiWord (ofBits (ds.bits.take 13)) = sjw
    exact (Adds.take data ds 13 [(sjw >>> 8).setWidth 8, sjw.setWidth 8]).trans (ih _ _)

theorem decodeEci_sound (hlen : data.payload.length < quircMaxPayload) (h : decodeEci data ds = .ok (data', ds')) :
    Kept data ds (data', ds') := by
  rw [decodeEci] at h
  simp only [takeBits_eq] at h
  have hsuf := skip_suffix ds 8
  split at h
  case isTrue => cases h
  case isFalse =>
    split at h
    case isTrue =>
      split at h
      case isTrue => cases h
      case isFalse => cases h; exact ⟨rfl, hlen, (skip_suffix _ 8).trans hsuf⟩
    case isFalse =>
      split at h
      case isTrue =>
        split at h
        case isTrue => cases h
        case isFalse => cases h; exact ⟨rfl, hlen, (skip_suffix _ 16).trans hsuf⟩
      case isFalse => cases h; exact ⟨rfl, hlen, hsuf⟩

theorem decodeNumeric_sound (h : decodeNumeric data ds = .ok (data', ds')) : Kept data ds (data', ds') := by
  simp only [decodeNumeric, takeBits_eq] at h
  split at h
  case isTrue => cases h
  case isFalse hroom => exact (numericLoop_adds _ h).kept hroom

theorem decodeAlpha_sound (h : decodeAlpha data ds = .ok (data', ds')) : Kept data ds (data', ds') := by
  simp only [decodeAlpha, takeBits_eq] at h
  split at h
  case isTrue => cases h
  case isFalse hroom => exact (alphaLoop_adds _ h).kept hroom

theorem decodeByte_sound (h : decodeByte data ds = .ok (data', ds')) : Kept data ds (data', ds') := by
  simp only [decodeByte, takeBits_eq] at h
  split at h
  case isTrue => cases h
  case isFalse hroom =>
    split at h
    case isTrue => cases h
    case isFalse =>
      rw [← Except.ok.inj h]
      exact (byteLoop_adds _ _ _).kept hroom

theorem decodeKanji_sound (h : decodeKanji data ds = .ok (data', ds')) : Kept data ds (data', ds') := by
  simp only [decodeKanji, takeBits_eq] at h
  split at h
  case isTrue => cases h
  case isFalse hroom =>
    split at h
    case isTrue => cases h
    case isFalse =>
      rw [← Except.ok.inj h]
      exact (kanjiLoop_adds _ _ _).kept hroom

theorem decodeSegment_sound {type : ℕ} (hlen : data.payload.length < quircMaxPayload)
    (h : decodeSegment type data ds = some (.ok (data', ds'))) : Kept data ds (data', ds') := by
  unfold decodeSegment at h
  split at h
  case h_1 => exact decodeNumeric_sound (Option.some.inj h)
  case h_2 => exact decodeAlpha_sound (Option.some.inj h)
  case h_3 => exact decodeByte_sound (Option.some.inj h)
  case h_4 => exact decodeKanji_sound (Option.some.inj h)
  case h_5 => exact decodeEci_sound hlen (Option.some.inj h)
  case h_6 => cases h

/-- A round takes four bits at least, so that there is an end. -/
theorem payloadLoop_total (fuel : ℕ) (data : QuircData) (ds : Datastream)
    (hlen : data.payload.length < quircMaxPayload) (hfuel : bitsRemaining ds / 4 < fuel) :
    ∃ r, payloadLoop fuel data ds = some r ∧
      ∀ data' ds', r = .ok (data', ds') → Kept data ds (data', ds') := by
  induction fuel generalizing data ds with
  | zero => cases hfuel
  | succ fuel ih =>
    rw [payloadLoop]
    split
    case isTrue hfour =>
      rw [takeBits_eq]
      dsimp only
      have hsuf := skip_suffix ds 4
      have hrest : bitsRemaining (ds.skip 4) = bitsRemaining ds - 4 := by
        rw [← Datastream.length_bits, Datastream.bits_skip, List.length_drop, Datastream.length_bits]
      split
      case h_1 => exact ⟨_, rfl, fun data' ds' h => by cases h; exact ⟨rfl, hlen, hsuf⟩⟩
      case h_2 => exact ⟨_, rfl, fun data' ds' h => by cases h⟩
      case h_3 data₁ ds₁ hok =>
        obtain ⟨hv, hlen₁, hsuf₁⟩ := decodeSegment_sound hlen hok
        have hle := hsuf₁.length_le
        rw [Datastream.length_bits, Datastream.length_bits, hrest] at hle
        have hfuel₁ : bitsRemaining ds₁ / 4 < fuel := by dsimp only at hle; omega
        generalize hdata₂ : (if ofBits (ds.bits.take 4) &&& (ofBits (ds.bits.take 4) - 1) = 0 ∧
          ofBits (ds.bits.take 4) > data₁.dataType
          then { data₁ with dataType := ofBits (ds.bits.take 4) } else data₁) = data₂
        have hpayload : data₂.payload = data₁.payload ∧ data₂.format = data₁.format := by
          rw [← hdata₂]
          split <;> exact ⟨rfl, rfl⟩
        obtain ⟨r, hr, hsound⟩ := ih data₂ ds₁ (by rw [hpayload.1]; exact hlen₁) hfuel₁
        refine ⟨r, hr, fun data' ds' h => ?_⟩
        obtain ⟨hv', hlen', hsuf'⟩ := hsound data' ds' h
        exact ⟨hv'.trans (hpayload.2.trans hv), hlen', hsuf'.trans (hsuf₁.trans hsuf)⟩
    case isFalse => exact ⟨_, rfl, fun data' ds' h => by cases h; exact ⟨rfl, hlen, List.suffix_rfl⟩⟩

/-- There is room for the nul always. -/
theorem decodePayload_total {fuel : ℕ} (hlen : data.payload.length < quircMaxPayload)
    (hfuel : bitsRemaining ds / 4 < fuel) :
    ∃ r, decodePayload fuel data ds = some r ∧
      ∀ data', r = .ok data' → data'.format = data.format ∧ data'.payload.length < quircMaxPayload := by
  obtain ⟨r, hr, hsound⟩ := payloadLoop_total fuel data ds hlen hfuel
  rw [decodePayload, hr]
  cases r with
  | error e => exact ⟨_, rfl, fun data' h => by cases h⟩
  | ok r =>
    obtain ⟨data₁, ds₁⟩ := r
    obtain ⟨hv₁, hlen₁, -⟩ := hsound data₁ ds₁ rfl
    refine ⟨_, rfl, fun data' h => ?_⟩
    cases h
    rw [if_neg (not_le.mpr hlen₁)]
    exact ⟨hv₁, hlen₁⟩

end Sound

end OpenMV.Vision
