import Arnm.Memory.MemoryBlock
import Arnm.Text.Base64Encode
import Arnm.Text.Hex

set_option autoImplicit false

/-! # Texts in blocks of their own

`arnm_binary_to_hex_alloc` and `arnm_binary_to_base64_alloc` draw the buffer they write from an
allocator. Both are one definition with the encoder, its bound and the length of the block, and one
lemma says what either leaves. -/

namespace Arnm.Text

open Memory

variable {σ : Type}

/-- A call's answer, the descriptor it was given, and the allocator. -/
structure TextAnswer (σ : Type) where
  result : Result
  out : MemoryBlock
  state : σ

/-- The bound is tested, a block is allocated, and the text is written into it. -/
def encodeAlloc (calls : Calls σ) (encode : Bytes → Nat → Nat → Nat → Result × Bytes)
    (maxSize length : Nat) (out : MemoryBlock) (data size : Nat) (s : σ) : TextAnswer σ :=
  if data = 0 then ⟨.errorNullPointer, out, s⟩
  else if maxSize < size then ⟨.errorArithmeticOverflow, out, s⟩
  else
    -- `arnm_memory_block_alloc`
    let got := calls.alloc out.data length s
    let block : MemoryBlock := ⟨got.buffer, if got.result = .success then length else out.size⟩
    if got.result ≠ .success then ⟨got.result, block, got.state⟩
    else
      let written := encode (calls.bytes got.state) block.data data size
      ⟨written.1, block, calls.write written.2 got.state⟩

/-- `ARNM_HEX_STRING_LENGTH`, which counts the terminator. -/
def hexStringLength (size : Nat) : Nat := (size * 2 + 1) % 2 ^ 32

/-- `arnm_binary_to_hex_alloc` -/
def binaryToHexAlloc (calls : Calls σ) (out : MemoryBlock) (data size : Nat) (s : σ) :
    TextAnswer σ :=
  encodeAlloc calls Hex.binaryToHex Hex.maxBinarySize (hexStringLength size) out data size s

/-- `arnm_binary_to_base64_alloc` -/
def binaryToBase64Alloc (calls : Calls σ) (out : MemoryBlock) (data size : Nat) (s : σ) :
    TextAnswer σ :=
  encodeAlloc calls Base64.binaryToBase64 Base64.maxBinarySize
    ((Base64.stringLength size + 1) % 2 ^ 32) out data size s

/-! ## What either leaves -/

/-- Nothing changed for the caller. -/
structure Declined (p : Provider σ) (out : MemoryBlock) (s : σ) (blocks : List Block)
    (r : TextAnswer σ) : Prop where
  result : r.result.isError = true
  out : r.out = out
  holds : p.holds r.state blocks
  keeps : Keeps blocks (p.bytes s) (p.bytes r.state)

/-- The text stands in a block of its own with a NUL behind it, and the other blocks are as they
were. -/
structure Spelled (p : Provider σ) (text : List UInt8) (s : σ) (blocks : List Block)
    (r : TextAnswer σ) : Prop where
  result : r.result = .success
  size : r.out.size = text.length + 1
  holds : p.holds r.state (⟨r.out.data, r.out.size⟩ :: blocks)
  keeps : Keeps blocks (p.bytes s) (p.bytes r.state)
  read : (p.bytes r.state).read r.out.data (text.length + 1) = text ++ [0]

variable (p : Provider σ) {s : σ} {blocks : List Block} {out : MemoryBlock} {data size : Nat}

/-- An encoder that puts its text and a NUL wherever there is room for both. -/
theorem encodeAlloc_spec {encode : Bytes → Nat → Nat → Nat → Result × Bytes}
    {text : List UInt8 → List UInt8} {maxSize length : Nat}
    (hencode : ∀ m result, Region.Apart ⟨result, length⟩ ⟨data, size⟩ →
      encode m result data size = (.success, m.put result (text (m.read data size) ++ [0])))
    (hlength : ∀ bytes : List UInt8, bytes.length = size → (text bytes).length + 1 = length)
    (held : p.holds s blocks) (hne : data ≠ 0) (hsize : size ≤ maxSize)
    (hdata : ∃ b ∈ blocks, Region.Within ⟨data, size⟩ b.extent) :
    let r := encodeAlloc p.toCalls encode maxSize length out data size s
    Declined p out s blocks r ∨ Spelled p (text ((p.bytes s).read data size)) s blocks r := by
  intro r
  have hr : r = encodeAlloc p.toCalls encode maxSize length out data size s := rfl
  unfold encodeAlloc at hr
  rw [if_neg hne, if_neg (Nat.not_lt.mpr hsize)] at hr
  rcases p.lawful.alloc out.data length held with ⟨herr, hbuf, hheld, hkeeps⟩ | ⟨hok, hheld, hkeeps⟩
  · have hno := Result.ne_success_of_isError herr
    left
    dsimp only at hr
    rw [if_neg hno, if_pos hno, hbuf] at hr
    rw [hr]
    exact ⟨herr, rfl, hheld, hkeeps⟩
  · right
    generalize p.alloc out.data length s = got at hr hok hheld hkeeps
    obtain ⟨b, hb, hwithin⟩ := hdata
    have happart := (List.pairwise_cons.mp (p.lawful.apart hheld)).1
    have hread : (p.bytes got.state).read data size = (p.bytes s).read data size :=
      Bytes.read_congr ((hkeeps b hb).within hwithin)
    have hput := hencode (p.bytes got.state) got.buffer
      ((happart b hb).within (Region.Within.refl _) hwithin)
    have hlen := hlength _ (Bytes.length_read (p.bytes s) data size)
    rw [hread] at hput
    generalize text ((p.bytes s).read data size) = spelled at hput hlen ⊢
    dsimp only at hr
    rw [if_pos hok, if_neg (not_not_intro hok), hput] at hr
    have hbytes : p.bytes r.state = (p.bytes got.state).put got.buffer (spelled ++ [0]) := by
      rw [hr]
      exact p.lawful.bytes_write _ _
    refine ⟨by rw [hr], ?_, ?_, ?_, ?_⟩
    · rw [hr]
      exact hlen.symm
    · rw [hr]
      exact p.lawful.holds_write _ hheld
    · intro c hc
      rw [hbytes]
      refine (hkeeps c hc).trans (Bytes.put_agreeOn ?_)
      rw [List.length_append, List.length_singleton, hlen]
      exact happart c hc
    · have hwritten := Bytes.read_put (p.bytes got.state) got.buffer (spelled ++ [0])
      rw [List.length_append, List.length_singleton] at hwritten
      rw [hbytes, hr]
      exact hwritten

/-- `arnm_binary_to_hex_alloc` -/
theorem binaryToHexAlloc_spec (held : p.holds s blocks) (hne : data ≠ 0)
    (hsize : size ≤ Hex.maxBinarySize)
    (hdata : ∃ b ∈ blocks, Region.Within ⟨data, size⟩ b.extent) :
    let r := binaryToHexAlloc p.toCalls out data size s
    Declined p out s blocks r ∨
      Spelled p (Hex.encodeText ((p.bytes s).read data size)) s blocks r := by
  have hmax : Hex.maxBinarySize = 2147483647 := rfl
  have hlength : hexStringLength size = size * 2 + 1 := by
    unfold hexStringLength
    omega
  unfold binaryToHexAlloc
  rw [hlength]
  refine encodeAlloc_spec p ?_ ?_ held hne hsize hdata
  · intro m result happart
    exact Hex.binaryToHex_spec hsize
      (happart.within ⟨Nat.le_refl _, by simp⟩ (Region.Within.refl _))
  · intro bytes hbytes
    rw [Hex.length_encodeText, hbytes]

/-- `arnm_binary_to_base64_alloc` -/
theorem binaryToBase64Alloc_spec (held : p.holds s blocks) (hne : data ≠ 0)
    (hsize : size ≤ Base64.maxBinarySize)
    (hdata : ∃ b ∈ blocks, Region.Within ⟨data, size⟩ b.extent) :
    let r := binaryToBase64Alloc p.toCalls out data size s
    Declined p out s blocks r ∨
      Spelled p (Base64.encodeText ((p.bytes s).read data size)) s blocks r := by
  have hmax : Base64.maxBinarySize = 3221225469 := rfl
  have hchars := Base64.stringLength_eq hsize
  have hlength : (Base64.stringLength size + 1) % 2 ^ 32 = Base64.stringLength size + 1 := by
    omega
  unfold binaryToBase64Alloc
  rw [hlength]
  refine encodeAlloc_spec p ?_ ?_ held hne hsize hdata
  · intro m result happart
    exact Base64.binaryToBase64_spec hsize
      (happart.within ⟨Nat.le_refl _, by simp⟩ (Region.Within.refl _))
  · intro bytes hbytes
    rw [Base64.length_encodeText, hbytes, hchars]

/-! ## There and back -/

/-- The text of a block without its terminator. -/
theorem Spelled.text {text : List UInt8} {r : TextAnswer σ} (h : Spelled p text s blocks r) :
    (p.bytes r.state).read r.out.data text.length = text := by
  have htake := Bytes.read_take (p.bytes r.state) r.out.data (text.length + 1) text.length
  rw [h.read, List.take_left, Nat.min_eq_right (Nat.le_succ _)] at htake
  exact htake.symm

/-- A block held before lies apart from the text. -/
theorem Spelled.apart {text : List UInt8} {r : TextAnswer σ} (h : Spelled p text s blocks r)
    {b : Block} (hb : b ∈ blocks) {n : Nat} (hn : n ≤ b.size) :
    Region.Apart ⟨b.addr, n⟩ ⟨r.out.data, text.length⟩ := by
  have happart := (List.pairwise_cons.mp (p.lawful.apart h.holds)).1 b hb
  refine happart.symm.within ⟨Nat.le_refl _, ?_⟩ ⟨Nat.le_refl _, ?_⟩
  · show b.addr + n ≤ b.addr + b.size
    omega
  · show r.out.data + text.length ≤ r.out.data + r.out.size
    rw [h.size]
    omega

/-- A size that no text could be measured for is refused before anything is allocated. Any other
one is refused by the allocator, with nothing changed for the caller, or its text stands in a block
of its own. The decoders give the bytes back from there, into any block that was held before and
has room for them. -/
theorem allocated_texts_decode (held : p.holds s blocks) (hne : data ≠ 0)
    (hdata : ∃ b ∈ blocks, Region.Within ⟨data, size⟩ b.extent) :
    (let r := binaryToHexAlloc p.toCalls out data size s
      if Hex.maxBinarySize < size then r = ⟨.errorArithmeticOverflow, out, s⟩
      else
        Declined p out s blocks r ∨
          Spelled p (Hex.encodeText ((p.bytes s).read data size)) s blocks r ∧
          ∀ t ∈ blocks, size ≤ t.size →
            Hex.binaryFromHex (p.bytes r.state) t.addr r.out.data (r.out.size - 1) =
              (.success, (p.bytes r.state).put t.addr ((p.bytes s).read data size))) ∧
    (let r := binaryToBase64Alloc p.toCalls out data size s
      if Base64.maxBinarySize < size then r = ⟨.errorArithmeticOverflow, out, s⟩
      else
        Declined p out s blocks r ∨
          Spelled p (Base64.encodeText ((p.bytes s).read data size)) s blocks r ∧
          ∀ t ∈ blocks, (r.out.size - 1) / 4 * 3 ≤ t.size → ∀ outSize,
            Base64.binaryFromBase64 (p.bytes r.state) t.addr outSize r.out.data (r.out.size - 1) =
              (.success, size, (p.bytes r.state).put t.addr ((p.bytes s).read data size))) := by
  have hread := Bytes.length_read (p.bytes s) data size
  constructor
  · intro r
    split
    · rename_i hlarge
      exact (if_neg hne).trans (if_pos hlarge)
    · rename_i hsize
      refine (binaryToHexAlloc_spec p held hne (Nat.not_lt.mp hsize) hdata).imp_right fun h => ?_
      refine ⟨h, fun t ht hroom => ?_⟩
      have hlen := Hex.length_encodeText ((p.bytes s).read data size)
      have hchars : r.out.size - 1 = (Hex.encodeText ((p.bytes s).read data size)).length := by
        rw [show r.out.size = _ from h.size, Nat.add_sub_cancel]
      have hhalf : (Hex.encodeText ((p.bytes s).read data size)).length / 2 = size := by
        rw [hlen, hread]
        omega
      have hwell := Hex.wellFormed_encodeText ((p.bytes s).read data size)
      rw [hchars, Hex.binaryFromHex_spec (hhalf.symm ▸ h.apart p ht hroom), h.text,
        if_neg (not_not_intro hwell.1), if_pos hwell.2, Hex.decodeText_encodeText]
  · intro r
    split
    · rename_i hlarge
      exact (if_neg hne).trans (if_pos hlarge)
    · rename_i hsize
      have hmax : Base64.maxBinarySize = 3221225469 := rfl
      refine (binaryToBase64Alloc_spec p held hne (Nat.not_lt.mp hsize) hdata).imp_right fun h => ?_
      refine ⟨h, fun t ht hroom outSize => ?_⟩
      have hchars : r.out.size - 1 = (Base64.encodeText ((p.bytes s).read data size)).length := by
        rw [show r.out.size = _ from h.size, Nat.add_sub_cancel]
      have hcount := Base64.byteCount_encodeText ((p.bytes s).read data size)
      rw [hread] at hcount
      rw [hchars] at hroom ⊢
      rw [Base64.binaryFromBase64_spec (Or.inl (h.apart p ht hroom)), h.text,
        Base64.outcome_of_wellFormed (Base64.wellFormed_encodeText _), hcount,
        Base64.decoded_encodeText, Nat.mod_eq_of_lt (by omega)]

/-- Three bytes in a block of a lent arena of 64. -/
def threeBytes : Heap × Nat :=
  let got := (Provider.ofArena noHost).alloc 0 3 (lentArena 64, 0)
  (Provider.ofArena noHost).write
    (((Provider.ofArena noHost).bytes got.state).put got.buffer [0x4A, 0xF0, 0x07]) got.state

theorem threeBytes_held : (Provider.ofArena noHost).holds threeBytes [⟨8, 3⟩] := by
  have start : (Provider.ofArena noHost).holds (lentArena 64, 0) [] :=
    lentArena_sound (by decide) (by decide) (by decide)
  rcases (Provider.ofArena noHost).lawful.alloc 0 3 start with ⟨herr, -⟩ | ⟨-, hheld, -⟩
  · exact absurd herr (by decide)
  · exact (Provider.ofArena noHost).lawful.holds_write _ hheld

/-- Their hex takes a block of seven and their base64 one of five; both are read back over the
bytes, which are then what they were. -/
theorem allocated_texts_decode_sample :
    let p := Provider.ofArena noHost
    let r := binaryToHexAlloc p.toCalls .empty 8 3 threeBytes
    let r' := binaryToBase64Alloc p.toCalls .empty 8 3 threeBytes
    (r.out.size = 7 ∧ (p.bytes r.state).read r.out.data 6 = [0x34, 0x61, 0x66, 0x30, 0x30, 0x37] ∧
      ((Hex.binaryFromHex (p.bytes r.state) 8 r.out.data 6).2).read 8 3 = [0x4A, 0xF0, 0x07]) ∧
    r'.out.size = 5 ∧ (p.bytes r'.state).read r'.out.data 4 = [0x53, 0x76, 0x41, 0x48] ∧
      (Base64.binaryFromBase64 (p.bytes r'.state) 8 0 r'.out.data 4).2.2.read 8 3 =
        [0x4A, 0xF0, 0x07] := by
  intro p r r'
  have hread : (p.bytes threeBytes).read 8 3 = [0x4A, 0xF0, 0x07] := by decide +kernel
  obtain ⟨hhex, hbase64⟩ := @allocated_texts_decode _ p threeBytes [⟨8, 3⟩] .empty 8 3
    threeBytes_held (by decide) ⟨⟨8, 3⟩, List.mem_cons_self, Region.Within.refl _⟩
  rw [if_neg (by decide), hread] at hhex hbase64
  constructor
  · rcases hhex with hdeclined | ⟨hspelled, hback⟩
    · exact absurd hdeclined.result (by decide +kernel)
    · have hdecoded := hback ⟨8, 3⟩ List.mem_cons_self (by decide)
      refine ⟨by decide +kernel, by decide +kernel, ?_⟩
      exact (congrArg (fun a => Bytes.read a.2 8 3) hdecoded).trans (Bytes.read_put _ _ _)
  · rcases hbase64 with hdeclined | ⟨hspelled, hback⟩
    · exact absurd hdeclined.result (by decide +kernel)
    · have hdecoded := hback ⟨8, 3⟩ List.mem_cons_self (by decide +kernel) 0
      refine ⟨by decide +kernel, by decide +kernel, ?_⟩
      exact (congrArg (fun a => Bytes.read a.2.2 8 3) hdecoded).trans (Bytes.read_put _ _ _)

end Arnm.Text
