import OpenMV.Vision.QrPayload

/-! Messages in QR codes | scheme:codec | source:src/src/openmv/omv/img/qrcode.c

    How a message is written as segments, and that `decode_payload` reads what has been written. Digits are written in
    threes and letters in twos; what is left over takes fewer bits. A character of two bytes takes thirteen bits. -/

namespace OpenMV.Vision
open Schemes

/-! ### Writing -/

/-- A character of two bytes in one of the two ranges. -/
structure KanjiCode where
  code : ℕ
  range : (0x8140 ≤ code ∧ code ≤ 0x9ffc) ∨ (0xe040 ≤ code ∧ code ≤ 0xebbf)
  low : 0x40 ≤ code % 256 ∧ code % 256 ≤ 0xfc

inductive Segment where
  | numeric (digits : List (Fin 10))
  | alpha (letters : List (Fin 45))
  | byte (bytes : List (BitVec 8))
  | kanji (codes : List KanjiCode)
  | eci (assignment : Fin (2 ^ 21))

/-- The number that the digits are, the first one highest. -/
def tupleValue (base : ℕ) (ds : List (Fin base)) : ℕ := ds.foldl (fun a (d : Fin base) => base * a + d) 0

def digitBits : List (Fin 10) → List Bool
  | a :: b :: c :: ds => bitsOf 10 (tupleValue 10 [a, b, c]) ++ digitBits ds
  | [a, b] => bitsOf 7 (tupleValue 10 [a, b])
  | [a] => bitsOf 4 (tupleValue 10 [a])
  | [] => []

def letterBits : List (Fin 45) → List Bool
  | a :: b :: ds => bitsOf 11 (tupleValue 45 [a, b]) ++ letterBits ds
  | [a] => bitsOf 6 (tupleValue 45 [a])
  | [] => []

def byteBits (bs : List (BitVec 8)) : List Bool := bs.flatMap fun b => bitsOf 8 b.toNat

/-- The number of thirteen bits: the rows have 0xc0 places. -/
def kanjiValue (c : KanjiCode) : ℕ :=
  let offset := if c.code ≤ 0x9ffc then c.code - 0x8140 else c.code - 0xc140
  offset / 256 * 0xc0 + offset % 256

def kanjiBits (cs : List KanjiCode) : List Bool := cs.flatMap fun c => bitsOf 13 (kanjiValue c)

/-- One, two or three bytes; the first bits tell how many. -/
def eciBits (n : Fin (2 ^ 21)) : List Bool :=
  if n.val < 2 ^ 7 then bitsOf 8 n
  else if n.val < 2 ^ 14 then bitsOf 8 (0x80 + n / 2 ^ 8) ++ bitsOf 8 (n % 2 ^ 8)
  else bitsOf 8 (0xc0 + n / 2 ^ 16) ++ bitsOf 16 (n % 2 ^ 16)

/-- What is kept of an assignment: the first bits stay there. -/
def eciKept (n : Fin (2 ^ 21)) : ℕ := if n.val < 2 ^ 7 then n else if n.val < 2 ^ 14 then 0x8000 + n else 0xc00000 + n

namespace Segment

/-- Length and content. -/
def content (version : ℕ) : Segment → List Bool
  | numeric ds => bitsOf (lengthBits version 10 12 14) ds.length ++ digitBits ds
  | alpha ds => bitsOf (lengthBits version 9 11 13) ds.length ++ letterBits ds
  | byte bs => bitsOf (lengthBits version 8 16 16) bs.length ++ byteBits bs
  | kanji cs => bitsOf (lengthBits version 8 10 12) cs.length ++ kanjiBits cs
  | eci n => eciBits n

/-- The length can be written. -/
def Fits (version : ℕ) : Segment → Prop
  | numeric ds => ds.length < 2 ^ lengthBits version 10 12 14
  | alpha ds => ds.length < 2 ^ lengthBits version 9 11 13
  | byte bs => bs.length < 2 ^ lengthBits version 8 16 16
  | kanji cs => cs.length < 2 ^ lengthBits version 8 10 12
  | eci _ => True

/-- What the segment means. -/
def text : Segment → List (BitVec 8)
  | numeric ds => ds.map fun (d : Fin 10) => digitChar d
  | alpha ds => ds.map fun (d : Fin 45) => alphaChar d
  | byte bs => bs
  | kanji cs => cs.flatMap fun c => [BitVec.ofNat 8 (c.code / 256), BitVec.ofNat 8 c.code]
  | eci _ => []

def type : Segment → ℕ
  | numeric _ => 1
  | alpha _ => 2
  | byte _ => 4
  | kanji _ => 8
  | eci _ => 7

def bits (version : ℕ) (seg : Segment) : List Bool := bitsOf 4 seg.type ++ seg.content version

/-- The data after the segment. -/
def apply (data : QuircData) (seg : Segment) : QuircData :=
  match seg with
  | eci n => { data with eci := eciKept n }
  | _ => { data with payload := data.payload ++ seg.text, dataType := max data.dataType seg.type }

end Segment

/-! ### Tuples -/

section Tuples
variable {base : ℕ}

theorem tupleValue_append (ds : List (Fin base)) (d : Fin base) :
    tupleValue base (ds ++ [d]) = base * tupleValue base ds + d := by
  rw [tupleValue, List.foldl_append]
  rfl

theorem tupleValue_lt (ds : List (Fin base)) : tupleValue base ds < base ^ ds.length := by
  induction ds using List.reverseRecOn with
  | nil => exact Nat.one_pos
  | append_singleton ds d ih =>
    rw [tupleValue_append, List.length_append, List.length_singleton, pow_succ']
    calc base * tupleValue base ds + d < base * tupleValue base ds + base := Nat.add_lt_add_left d.isLt _
      _ = base * (tupleValue base ds + 1) := (Nat.mul_succ ..).symm
      _ ≤ base * base ^ ds.length := Nat.mul_le_mul_left _ ih

theorem tupleChars_tupleValue (char : ℕ → BitVec 8) (ds : List (Fin base)) :
    tupleChars base char ds.length (tupleValue base ds) = ds.map fun (d : Fin base) => char d := by
  induction ds using List.reverseRecOn with
  | nil => rfl
  | append_singleton ds d ih =>
    have hpos : 0 < base := d.pos
    rw [List.length_append, List.length_singleton, tupleChars, tupleValue_append, Nat.mul_add_div hpos,
      Nat.div_eq_of_lt d.isLt, Nat.add_zero, ih, Nat.mul_add_mod, Nat.mod_eq_of_lt d.isLt, List.map_append,
      List.map_singleton]

variable {data : QuircData} {ds : Datastream} {rest : List Bool}

/-- There are the bits that come next. -/
theorem not_remaining_lt {front : List Bool} {len : ℕ} (hbits : ds.bits = front ++ rest) (hlen : front.length = len) :
    ¬ bitsRemaining ds < len := by
  rw [← Datastream.length_bits, hbits, List.length_append]
  omega

/-- A tuple that comes next is decoded. -/
theorem decodeTuple_tupleValue (char : ℕ → BitVec 8) (data : QuircData) {bits : ℕ} (tuple : List (Fin base))
    (hroom : base ^ tuple.length ≤ 2 ^ bits) (hbits : ds.bits = bitsOf bits (tupleValue base tuple) ++ rest) :
    ∃ ds', decodeTuple base char bits tuple.length data ds =
      .ok ({ data with payload := data.payload ++ tuple.map fun (d : Fin base) => char d }, ds') ∧ ds'.bits = rest := by
  obtain ⟨htake, hrest⟩ := takeBits_bitsOf hbits ((tupleValue_lt tuple).trans_le hroom)
  refine ⟨ds.skip bits, ?_, hrest⟩
  rw [decodeTuple, if_neg (not_remaining_lt hbits (length_bitsOf ..)), htake]
  dsimp only
  rw [tupleChars_tupleValue]

/-! ### Contents -/

theorem numericLoop_digitBits (digits : List (Fin 10)) (data : QuircData) (ds : Datastream)
    (hbits : ds.bits = digitBits digits ++ rest) :
    ∃ ds', numericLoop digits.length data ds =
      .ok ({ data with payload := data.payload ++ digits.map fun (d : Fin 10) => digitChar d }, ds') ∧
        ds'.bits = rest := by
  induction digits using digitBits.induct generalizing data ds with
  | case1 a b c digits ih =>
    rw [digitBits, List.append_assoc] at hbits
    obtain ⟨ds₁, htuple, hrest⟩ := decodeTuple_tupleValue digitChar data [a, b, c] (by simp) hbits
    obtain ⟨ds', hloop, hrest'⟩ := ih _ ds₁ hrest
    refine ⟨ds', ?_, hrest'⟩
    rw [List.length_cons, List.length_cons, List.length_cons, numericLoop, numericTuple]
    refine (congrArg (· >>= _) htuple).trans (hloop.trans ?_)
    simp
  | case2 a b => exact decodeTuple_tupleValue digitChar data [a, b] (by simp) hbits
  | case3 a => exact decodeTuple_tupleValue digitChar data [a] (by simp) hbits
  | case4 => exact ⟨ds, by simp [numericLoop], hbits⟩

theorem alphaLoop_letterBits (letters : List (Fin 45)) (data : QuircData) (ds : Datastream)
    (hbits : ds.bits = letterBits letters ++ rest) :
    ∃ ds', alphaLoop letters.length data ds =
      .ok ({ data with payload := data.payload ++ letters.map fun (d : Fin 45) => alphaChar d }, ds') ∧
        ds'.bits = rest := by
  induction letters using letterBits.induct generalizing data ds with
  | case1 a b letters ih =>
    rw [letterBits, List.append_assoc] at hbits
    obtain ⟨ds₁, htuple, hrest⟩ := decodeTuple_tupleValue alphaChar data [a, b] (by simp) hbits
    obtain ⟨ds', hloop, hrest'⟩ := ih _ ds₁ hrest
    refine ⟨ds', ?_, hrest'⟩
    rw [List.length_cons, List.length_cons, alphaLoop, alphaTuple]
    refine (congrArg (· >>= _) htuple).trans (hloop.trans ?_)
    simp
  | case2 a => exact decodeTuple_tupleValue alphaChar data [a] (by simp) hbits
  | case3 => exact ⟨ds, by simp [alphaLoop], hbits⟩

theorem byteLoop_byteBits (bs : List (BitVec 8)) (data : QuircData) (ds : Datastream)
    (hbits : ds.bits = byteBits bs ++ rest) :
    ∃ ds', byteLoop bs.length data ds = ({ data with payload := data.payload ++ bs }, ds') ∧ ds'.bits = rest := by
  induction bs generalizing data ds with
  | nil => exact ⟨ds, by simp [byteLoop], hbits⟩
  | cons b bs ih =>
    rw [byteBits, List.flatMap_cons, List.append_assoc] at hbits
    obtain ⟨htake, hrest⟩ := takeBits_bitsOf hbits b.isLt
    obtain ⟨ds', hloop, hrest'⟩ := ih { data with payload := data.payload ++ [b] } _ hrest
    refine ⟨ds', ?_, hrest'⟩
    rw [List.length_cons, byteLoop, htake]
    dsimp only
    rw [BitVec.ofNat_toNat, BitVec.setWidth_eq, hloop]
    simp

theorem length_byteBits (bs : List (BitVec 8)) : (byteBits bs).length = bs.length * 8 := by
  simp [byteBits, List.length_flatMap]

theorem length_kanjiBits (cs : List KanjiCode) : (kanjiBits cs).length = cs.length * 13 := by
  simp [kanjiBits, List.length_flatMap]

theorem length_kanjiText (cs : List KanjiCode) : (Segment.kanji cs).text.length = cs.length * 2 := by
  simp [Segment.text, List.length_flatMap]

/-- High bits and low bits of a number. -/
theorem shiftLeft_or {a b len : ℕ} (hb : b < 2 ^ len) : a <<< len ||| b = a * 2 ^ len + b := by
  rw [← Nat.shiftLeft_add_eq_or_of_lt hb, Nat.shiftLeft_eq]

/-- A character comes back from its number. -/
theorem kanjiWord_kanjiValue (c : KanjiCode) :
    kanjiValue c < 2 ^ 13 ∧ kanjiWord (kanjiValue c) = BitVec.ofNat 16 c.code := by
  obtain ⟨code, hrange, hlow⟩ := c
  obtain ⟨offset, hoffset⟩ : ∃ offset, offset = if code ≤ 0x9ffc then code - 0x8140 else code - 0xc140 := ⟨_, rfl⟩
  have hplace : offset % 256 < 0xc0 ∧ offset ≤ 0x2a7f := by split at hoffset <;> omega
  have hdiv : (offset / 256 * 0xc0 + offset % 256) / 0xc0 = offset / 256 := by omega
  have hmod : (offset / 256 * 0xc0 + offset % 256) % 0xc0 = offset % 256 := by omega
  have hback : (offset / 256) <<< 8 ||| offset % 256 = offset := by
    rw [shiftLeft_or (by omega : offset % 256 < 2 ^ 8)]
    omega
  rw [kanjiValue, kanjiWord]
  dsimp only
  rw [← hoffset, hdiv, hmod, hback]
  refine ⟨by omega, ?_⟩
  split at hoffset <;> split <;> first | omega | (congr 1; omega)

theorem kanjiLoop_kanjiBits (cs : List KanjiCode) (data : QuircData) (ds : Datastream)
    (hbits : ds.bits = kanjiBits cs ++ rest) :
    ∃ ds', kanjiLoop cs.length data ds =
      ({ data with payload := data.payload ++ (Segment.kanji cs).text }, ds') ∧ ds'.bits = rest := by
  induction cs generalizing data ds with
  | nil => exact ⟨ds, by simp [kanjiLoop, Segment.text], hbits⟩
  | cons c cs ih =>
    rw [kanjiBits, List.flatMap_cons, List.append_assoc] at hbits
    obtain ⟨hlt, hword⟩ := kanjiWord_kanjiValue c
    obtain ⟨htake, hrest⟩ := takeBits_bitsOf hbits hlt
    have hcode : c.code < 65536 := by have := c.range; omega
    have hhigh : (BitVec.ofNat 16 c.code >>> 8).setWidth 8 = BitVec.ofNat 8 (c.code / 256) := by
      refine BitVec.eq_of_toNat_eq ?_
      simp [Nat.shiftRight_eq_div_pow, Nat.mod_eq_of_lt hcode]
    have hlow : (BitVec.ofNat 16 c.code).setWidth 8 = BitVec.ofNat 8 c.code := by
      refine BitVec.eq_of_toNat_eq ?_
      simp
    obtain ⟨ds', hloop, hrest'⟩ := ih
      { data with payload := data.payload ++ [BitVec.ofNat 8 (c.code / 256), BitVec.ofNat 8 c.code] } _ hrest
    refine ⟨ds', ?_, hrest'⟩
    rw [List.length_cons, kanjiLoop, htake]
    dsimp only
    rw [hword, hhigh, hlow, hloop]
    simp [Segment.text]

theorem decodeEci_eciBits (n : Fin (2 ^ 21)) (data : QuircData) (hbits : ds.bits = eciBits n ++ rest) :
    ∃ ds', decodeEci data ds = .ok ({ data with eci := eciKept n }, ds') ∧ ds'.bits = rest := by
  have hn := n.isLt
  have hone : ∀ m < 0x80, ¬ m &&& 0xc0 = 0x80 ∧ ¬ m &&& 0xe0 = 0xc0 := by decide
  have htwo : ∀ m < 0x40, (0x80 + m) &&& 0xc0 = 0x80 := by decide
  have hthree : ∀ m < 0x20, ¬ (0xc0 + m) &&& 0xc0 = 0x80 ∧ (0xc0 + m) &&& 0xe0 = 0xc0 := by decide
  rw [eciBits] at hbits
  rw [decodeEci, eciKept]
  split at hbits
  case isTrue hlt =>
    obtain ⟨htake, hrest⟩ := takeBits_bitsOf hbits (by omega)
    rw [if_neg (not_remaining_lt hbits (length_bitsOf ..)), htake, if_pos hlt]
    dsimp only
    rw [if_neg (hone _ hlt).1, if_neg (hone _ hlt).2]
    exact ⟨_, rfl, hrest⟩
  case isFalse hge =>
    rw [if_neg hge]
    split at hbits
    case isTrue hlt =>
      rw [List.append_assoc] at hbits
      obtain ⟨htake, hrest⟩ := takeBits_bitsOf hbits (by omega)
      obtain ⟨htake', hrest'⟩ := takeBits_bitsOf hrest (by omega)
      rw [if_neg (not_remaining_lt hbits (length_bitsOf ..)), htake, if_pos hlt]
      dsimp only
      have hkept : (0x80 + n.val / 2 ^ 8) <<< 8 ||| n.val % 2 ^ 8 = 0x8000 + n := by
        rw [shiftLeft_or (by omega)]
        omega
      rw [if_pos (htwo _ (by omega)), if_neg (not_remaining_lt hrest (length_bitsOf ..)),
        htake']
      dsimp only
      rw [hkept]
      exact ⟨_, rfl, hrest'⟩
    case isFalse hge' =>
      rw [List.append_assoc] at hbits
      obtain ⟨htake, hrest⟩ := takeBits_bitsOf hbits (by omega)
      obtain ⟨htake', hrest'⟩ := takeBits_bitsOf hrest (by omega)
      rw [if_neg (not_remaining_lt hbits (length_bitsOf ..)), htake, if_neg hge']
      dsimp only
      have hkept : (0xc0 + n.val / 2 ^ 16) <<< 16 ||| n.val % 2 ^ 16 = 0xc00000 + n := by
        rw [shiftLeft_or (by omega)]
        omega
      rw [if_neg (hthree _ (by omega)).1, if_pos (hthree _ (by omega)).2,
        if_neg (not_remaining_lt hrest (length_bitsOf ..)), htake']
      dsimp only
      rw [hkept]
      exact ⟨_, rfl, hrest'⟩

/-! ### Segments -/

/-- The type is kept if it is one of a single bit and greater than those before. -/
theorem dataType_max (data : QuircData) (n : ℕ) (hbit : n &&& (n - 1) = 0) :
    (if n &&& (n - 1) = 0 ∧ n > data.dataType then { data with dataType := n } else data) =
      { data with dataType := max data.dataType n } := by
  simp only [hbit, true_and]
  split
  case isTrue h => rw [Nat.max_eq_right h.le]
  case isFalse h => rw [Nat.max_eq_left (not_lt.mp h)]

/-- A segment whose type has been read. -/
theorem decodeSegment_content (seg : Segment) {data : QuircData} (hfits : seg.Fits data.version)
    (hroom : data.payload.length + seg.text.length < quircMaxPayload)
    (hbits : ds.bits = seg.content data.version ++ rest) :
    ∃ data' ds', decodeSegment seg.type data ds = some (.ok (data', ds')) ∧ ds'.bits = rest ∧
      (if seg.type &&& (seg.type - 1) = 0 ∧ seg.type > data'.dataType then { data' with dataType := seg.type }
        else data') = seg.apply data := by
  cases seg with
  | numeric digits =>
    rw [Segment.content, List.append_assoc] at hbits
    obtain ⟨htake, hrest⟩ := takeBits_bitsOf hbits hfits
    obtain ⟨ds', hloop, hrest'⟩ := numericLoop_digitBits digits data _ hrest
    have hover : ¬ data.payload.length + digits.length + 1 > quircMaxPayload := by
      simp only [Segment.text, List.length_map] at hroom
      omega
    refine ⟨{ data with payload := data.payload ++ (Segment.numeric digits).text }, ds', ?_, hrest',
      dataType_max _ 1 rfl⟩
    simp only [Segment.type, Segment.text, decodeSegment, decodeNumeric, htake, if_neg hover, hloop]
  | alpha letters =>
    rw [Segment.content, List.append_assoc] at hbits
    obtain ⟨htake, hrest⟩ := takeBits_bitsOf hbits hfits
    obtain ⟨ds', hloop, hrest'⟩ := alphaLoop_letterBits letters data _ hrest
    have hover : ¬ data.payload.length + letters.length + 1 > quircMaxPayload := by
      simp only [Segment.text, List.length_map] at hroom
      omega
    refine ⟨{ data with payload := data.payload ++ (Segment.alpha letters).text }, ds', ?_, hrest',
      dataType_max _ 2 rfl⟩
    simp only [Segment.type, Segment.text, decodeSegment, decodeAlpha, htake, if_neg hover, hloop]
  | byte bs =>
    rw [Segment.content, List.append_assoc] at hbits
    obtain ⟨htake, hrest⟩ := takeBits_bitsOf hbits hfits
    obtain ⟨ds', hloop, hrest'⟩ := byteLoop_byteBits bs data _ hrest
    have hover : ¬ data.payload.length + bs.length + 1 > quircMaxPayload := by
      simp only [Segment.text] at hroom
      omega
    have henough := not_remaining_lt hrest (length_byteBits bs)
    refine ⟨{ data with payload := data.payload ++ (Segment.byte bs).text }, ds', ?_, hrest',
      dataType_max _ 4 rfl⟩
    simp only [Segment.type, Segment.text, decodeSegment, decodeByte, htake, if_neg hover, if_neg henough, hloop]
  | kanji cs =>
    rw [Segment.content, List.append_assoc] at hbits
    obtain ⟨htake, hrest⟩ := takeBits_bitsOf hbits hfits
    obtain ⟨ds', hloop, hrest'⟩ := kanjiLoop_kanjiBits cs data _ hrest
    have hover : ¬ data.payload.length + cs.length * 2 + 1 > quircMaxPayload := by
      rw [length_kanjiText] at hroom
      omega
    have henough := not_remaining_lt hrest (length_kanjiBits cs)
    refine ⟨{ data with payload := data.payload ++ (Segment.kanji cs).text }, ds', ?_, hrest',
      dataType_max _ 8 rfl⟩
    simp only [Segment.type, decodeSegment, decodeKanji, htake, if_neg hover, if_neg henough, hloop]
  | eci n =>
    obtain ⟨ds', hloop, hrest'⟩ := decodeEci_eciBits n data hbits
    refine ⟨{ data with eci := eciKept n }, ds', ?_, hrest', ?_⟩
    · simp only [Segment.type, decodeSegment, hloop]
    · simp [Segment.type, Segment.apply]

end Tuples

/-! ### Messages -/

/-- No segment has more characters than three for every ten bits. -/
theorem length_digitBits (digits : List (Fin 10)) : 10 * digits.length ≤ 3 * (digitBits digits).length := by
  induction digits using digitBits.induct with
  | case1 a b c digits ih => simp only [digitBits, List.length_cons, List.length_append, length_bitsOf]; omega
  | case2 => simp [digitBits]
  | case3 => simp [digitBits]
  | case4 => simp

theorem length_letterBits (letters : List (Fin 45)) : 10 * letters.length ≤ 3 * (letterBits letters).length := by
  induction letters using letterBits.induct with
  | case1 a b letters ih => simp only [letterBits, List.length_cons, List.length_append, length_bitsOf]; omega
  | case2 => simp [letterBits]
  | case3 => simp

theorem length_text_le (version : ℕ) (seg : Segment) : 10 * seg.text.length ≤ 3 * (seg.content version).length := by
  cases seg with
  | numeric digits =>
    have := length_digitBits digits
    simp only [Segment.text, Segment.content, List.length_map, List.length_append, length_bitsOf]
    omega
  | alpha letters =>
    have := length_letterBits letters
    simp only [Segment.text, Segment.content, List.length_map, List.length_append, length_bitsOf]
    omega
  | byte bs =>
    simp only [Segment.text, Segment.content, List.length_append, length_bitsOf, length_byteBits]
    omega
  | kanji cs =>
    rw [length_kanjiText, Segment.content, List.length_append, length_bitsOf, length_kanjiBits]
    omega
  | eci n => simp [Segment.text]

/-- After the last segment comes the type 0, or there is no room for it. -/
def Ends (tail : List Bool) : Prop := tail.length < 4 ∨ ∃ rest, tail = bitsOf 4 0 ++ rest

section Message
variable {data : QuircData} {ds : Datastream} {tail : List Bool}

theorem apply_version (seg : Segment) : (seg.apply data).version = data.version := by cases seg <;> rfl

theorem length_apply (seg : Segment) :
    (seg.apply data).payload.length = data.payload.length + seg.text.length := by
  cases seg <;> simp [Segment.apply, Segment.text]

theorem payloadLoop_segments (segs : List Segment) {fuel : ℕ} (hfits : ∀ seg ∈ segs, seg.Fits data.version)
    (hbits : ds.bits = segs.flatMap (Segment.bits data.version) ++ tail) (hends : Ends tail)
    (hroom : 10 * data.payload.length + 3 * bitsRemaining ds < 10 * quircMaxPayload)
    (hfuel : bitsRemaining ds / 4 < fuel) :
    ∃ ds', payloadLoop fuel data ds = some (.ok (segs.foldl Segment.apply data, ds')) := by
  induction segs generalizing fuel data ds with
  | nil =>
    obtain ⟨fuel, rfl⟩ : ∃ m, fuel = m + 1 := ⟨fuel - 1, by omega⟩
    rw [List.flatMap_nil, List.nil_append] at hbits
    rw [payloadLoop, ← Datastream.length_bits, hbits]
    rcases hends with hshort | ⟨rest, rfl⟩
    · rw [if_neg (not_le.mpr hshort)]
      exact ⟨_, rfl⟩
    · obtain ⟨htake, -⟩ := takeBits_bitsOf hbits (by decide)
      rw [htake]
      split
      case isTrue => exact ⟨_, rfl⟩
      case isFalse => exact ⟨_, rfl⟩
  | cons seg segs ih =>
    obtain ⟨fuel, rfl⟩ : ∃ m, fuel = m + 1 := ⟨fuel - 1, by omega⟩
    rw [List.flatMap_cons, Segment.bits, List.append_assoc, List.append_assoc] at hbits
    have htype : seg.type < 2 ^ 4 := by cases seg <;> simp [Segment.type]
    have hlen := congrArg List.length hbits
    rw [Datastream.length_bits, List.length_append, List.length_append, length_bitsOf] at hlen
    have hdense := length_text_le data.version seg
    obtain ⟨htake, hrest⟩ := takeBits_bitsOf hbits htype
    obtain ⟨data', ds', hseg, hrest', hdata⟩ :=
      decodeSegment_content seg (hfits seg List.mem_cons_self) (by omega) hrest
    have hlen' := congrArg List.length hrest'
    rw [Datastream.length_bits] at hlen'
    rw [payloadLoop, if_pos (by omega), htake]
    dsimp only
    rw [hseg]
    dsimp only
    rw [hdata, List.foldl_cons]
    refine ih (fun s hs => ?_) ?_ ?_ ?_
    · rw [apply_version]
      exact hfits s (List.mem_cons_of_mem _ hs)
    · rw [apply_version]
      exact hrest'
    · rw [length_apply]
      omega
    · omega

/-- What has been written is read. -/
theorem decodePayload_segments (segs : List Segment) {fuel : ℕ} (hfits : ∀ seg ∈ segs, seg.Fits data.version)
    (hbits : ds.bits = segs.flatMap (Segment.bits data.version) ++ tail) (hends : Ends tail)
    (hroom : 10 * data.payload.length + 3 * bitsRemaining ds < 10 * quircMaxPayload)
    (hfuel : bitsRemaining ds / 4 < fuel) :
    decodePayload fuel data ds = some (.ok (segs.foldl Segment.apply data)) := by
  obtain ⟨ds', hloop⟩ := payloadLoop_segments segs hfits hbits hends hroom hfuel
  have hlen : (segs.foldl Segment.apply data).payload.length < quircMaxPayload := by
    obtain ⟨r, hr, hsound⟩ := payloadLoop_total fuel data ds (by omega) hfuel
    exact (hsound _ ds' (Option.some.inj (hr.symm.trans hloop))).2.1
  rw [decodePayload, hloop]
  dsimp only
  rw [if_neg (not_le.mpr hlen)]

/-- Segments add to the payload; the format stays. -/
theorem foldl_apply (segs : List Segment) (data : QuircData) :
    (segs.foldl Segment.apply data).payload = data.payload ++ segs.flatMap Segment.text ∧
      (segs.foldl Segment.apply data).version = data.version ∧
      (segs.foldl Segment.apply data).eccLevel = data.eccLevel ∧ (segs.foldl Segment.apply data).mask = data.mask := by
  induction segs generalizing data with
  | nil => simp
  | cons seg segs ih =>
    obtain ⟨hpayload, hversion, hlevel, hmask⟩ := ih (seg.apply data)
    rw [List.foldl_cons, hpayload, hversion, hlevel, hmask, List.flatMap_cons, ← List.append_assoc]
    cases seg <;> simp [Segment.apply, Segment.text]

end Message

/-- A message written as segments, with the type 0 or too few bits behind it, is read as its text: every bit is used as
    it was meant, and the length that the code allows is never too short. -/
theorem decode_payload_reads_segments {data : QuircData} {ds : Datastream} {fuel : ℕ} {segs : List Segment}
    {tail : List Bool} (hfits : ∀ seg ∈ segs, seg.Fits data.version) (hends : Ends tail)
    (hbits : ds.bits = segs.flatMap (Segment.bits data.version) ++ tail)
    (hroom : 10 * data.payload.length + 3 * bitsRemaining ds < 10 * quircMaxPayload)
    (hfuel : bitsRemaining ds / 4 < fuel) :
    decodePayload fuel data ds = some (.ok (segs.foldl Segment.apply data)) ∧
      (segs.foldl Segment.apply data).payload = data.payload ++ segs.flatMap Segment.text ∧
      (segs.foldl Segment.apply data).payload.length < quircMaxPayload := by
  have hread := decodePayload_segments segs hfits hbits hends hroom hfuel
  have htotal : ∃ r, decodePayload fuel data ds = some r ∧ _ :=
    decodePayload_total (show data.payload.length < quircMaxPayload by omega) hfuel
  obtain ⟨r, hr, hsound⟩ := htotal
  exact ⟨hread, (foldl_apply segs data).1, (hsound _ (Option.some.inj (hr.symm.trans hread))).2⟩

/-- The bytes of a message of four letters and three digits, with their check bytes. -/
def spottedBlock (k : ℕ) : BitVec 8 :=
  BitVec.ofNat 8 ([32, 35, 134, 5, 162, 1, 220, 192, 236, 17, 236, 17, 236, 17, 236, 17, 236, 17, 236, 139, 97, 56, 63,
    13, 251, 53].getD k 0)

def spottedText : List Segment := [.alpha [20, 2, 1, 0], .numeric [7, 4, 2]]

theorem spotted_fits : ∀ seg ∈ spottedText, seg.Fits 1 := by
  intro seg hseg
  rcases List.mem_pair.mp hseg with rfl | rfl <;> (unfold Segment.Fits; decide)

theorem spotted_ends : Ends (bitsOf 93 0xec11ec11ec11ec11ec11ec) :=
  .inr ⟨bitsOf 89 0xec11ec11ec11ec11ec11ec, by decide⟩

theorem decode_payload_reads_segments_spotted :
    decodePayload 41 ⟨1, 1, 3, 0, [], 0⟩ ⟨spottedBlock, 152, 0⟩ =
        some (.ok (spottedText.foldl Segment.apply ⟨1, 1, 3, 0, [], 0⟩)) ∧
      (spottedText.foldl Segment.apply ⟨1, 1, 3, 0, [], 0⟩).payload = [] ++ spottedText.flatMap Segment.text ∧
      (spottedText.foldl Segment.apply ⟨1, 1, 3, 0, [], 0⟩).payload.length < quircMaxPayload :=
  decode_payload_reads_segments spotted_fits spotted_ends (by decide) (by decide) (by decide)

end OpenMV.Vision
