import Arnm.Lib.Region

set_option autoImplicit false

/-! # Pointers in a byte memory

A pointer is stored as eight bytes, the lowest first. `word` reads one and `putWord` writes one;
`fill` sets a run of bytes to one value. -/

namespace Arnm.Bytes

/-- The number the bytes stand for, the lowest first. -/
def number (bytes : List UInt8) : Nat := bytes.foldr (fun b rest => b.toNat + 256 * rest) 0

/-- The `n` lowest bytes of a number. -/
def digits (n w : Nat) : List UInt8 := (List.range n).map fun k => UInt8.ofNat (w / 256 ^ k)

@[simp] theorem length_digits (n w : Nat) : (digits n w).length = n := by simp [digits]

theorem number_digits (n w : Nat) : number (digits n w) = w % 256 ^ n := by
  induction n generalizing w with
  | zero => simp [digits, number, Nat.mod_one]
  | succ n ih =>
      have hrest : (List.range n).map ((fun k => UInt8.ofNat (w / 256 ^ k)) ∘ Nat.succ) =
          digits n (w / 256) := by
        refine List.map_congr_left fun k _ => ?_
        rw [Function.comp_apply, Nat.succ_eq_add_one, Nat.pow_succ', ← Nat.div_div_eq_div_mul]
      have hfirst : (UInt8.ofNat (w / 256 ^ 0)).toNat = w % 256 := by
        rw [Nat.pow_zero, Nat.div_one, UInt8.toNat_ofNat']
      calc number (digits (n + 1) w)
          = number (UInt8.ofNat (w / 256 ^ 0) :: digits n (w / 256)) := by
            rw [digits, List.range_succ_eq_map, List.map_cons, List.map_map, hrest]
        _ = w % 256 + 256 * number (digits n (w / 256)) := by
            rw [number, List.foldr_cons, ← number, hfirst]
        _ = w % 256 + 256 * (w / 256 % 256 ^ n) := by rw [ih]
        _ = w % 256 ^ (n + 1) := by rw [Nat.pow_succ', Nat.mod_mul]

/-- The pointer stored at an address. -/
def word (m : Bytes) (addr : Nat) : Nat := number (m.read addr 8)

/-- Store a pointer. -/
def putWord (m : Bytes) (addr w : Nat) : Bytes := m.put addr (digits 8 w)

/-- Set `n` bytes to one value. -/
def fill (m : Bytes) (addr n : Nat) (b : UInt8) : Bytes := m.put addr (List.replicate n b)

theorem word_putWord (m : Bytes) (addr : Nat) {w : Nat} (hw : w < 2 ^ 64) :
    (m.putWord addr w).word addr = w := by
  have hread := m.read_put addr (digits 8 w)
  rw [length_digits] at hread
  rw [word, putWord, hread, number_digits]
  exact Nat.mod_eq_of_lt (by simpa using hw)

theorem word_congr {m m' : Bytes} {addr : Nat} (h : AgreeOn m m' ⟨addr, 8⟩) :
    m'.word addr = m.word addr := by
  rw [word, word, read_congr h]

theorem putWord_agreeOn {m : Bytes} {addr w : Nat} {r : Region}
    (h : Region.Apart ⟨addr, 8⟩ r) : AgreeOn m (m.putWord addr w) r :=
  put_agreeOn (by rwa [length_digits])

theorem fill_agreeOn {m : Bytes} {addr n : Nat} {b : UInt8} {r : Region}
    (h : Region.Apart ⟨addr, n⟩ r) : AgreeOn m (m.fill addr n b) r :=
  put_agreeOn (by rwa [List.length_replicate])

/-- What was filled. -/
theorem read_fill {m : Bytes} {addr n : Nat} {b : UInt8} {a k : Nat}
    (h : Region.Within ⟨a, k⟩ ⟨addr, n⟩) : (m.fill addr n b).read a k = List.replicate k b := by
  obtain ⟨hlo, hhi⟩ := h
  simp only [Region.stop_mk] at hlo hhi
  refine List.eq_replicate_iff.mpr ⟨length_read _ _ _, fun x hx => ?_⟩
  obtain ⟨j, hj, rfl⟩ := List.mem_map.mp hx
  have hjk := List.mem_range.mp hj
  have hin : addr ≤ a + j ∧ a + j < addr + (List.replicate n b).length := by
    rw [List.length_replicate]
    omega
  simp only [fill, put, if_pos hin]
  have hlt : a + j - addr < (List.replicate n b).length := by omega
  rw [← List.getElem_eq_getD (h := hlt), List.getElem_replicate]

/-- A pointer among bytes that are zero is null. -/
theorem word_fill_zero {m : Bytes} {addr n a : Nat}
    (h : Region.Within ⟨a, 8⟩ ⟨addr, n⟩) : (m.fill addr n 0).word a = 0 := by
  rw [word, read_fill h]
  rfl

end Arnm.Bytes
