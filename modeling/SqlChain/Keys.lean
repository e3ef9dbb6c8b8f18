import SqlChain.Types

/-!
# Store keys

Keys of the two LevelDB stores are a four-byte tag, the big-endian bytes of a
height and a hash (`heightToKey`, `keyWithSymbolToHeight`).  LevelDB orders
keys bytewise, which is the lexicographic order of byte lists, `List.lt`.
-/

namespace SqlChain

/-- `metaBlockIndex`, the tag `BLCK` of block keys. -/
def metaBlockIndex : List UInt8 := [66, 76, 67, 75]

/-- `metaResponseIndex`, the tag `RESP` of response keys. -/
def metaResponseIndex : List UInt8 := [82, 69, 83, 80]

/-- `metaAckIndex`, the tag `QACK` of acknowledgement keys. -/
def metaAckIndex : List UInt8 := [81, 65, 67, 75]

/-- `binary.BigEndian.PutUint32`: the four bytes of `n`, most significant first. -/
def putUint32 (n : Nat) : List UInt8 :=
  [n / 2 ^ 24, n / 2 ^ 16, n / 2 ^ 8, n].map UInt8.ofNat

/-- `binary.BigEndian.Uint32` of the first four bytes. -/
def getUint32 : List UInt8 → Nat
  | b0 :: b1 :: b2 :: b3 :: _ =>
      ((b0.toNat * 256 + b1.toNat) * 256 + b2.toNat) * 256 + b3.toNat
  | _ => 0

/-- `int32(x)` of a `uint32` value `x`. -/
def toInt32 (x : Nat) : Int :=
  if x < 2 ^ 31 then x else (x : Int) - 2 ^ 32

/-- `heightToKey`: the big-endian bytes of `uint32(h)`. -/
def heightToKey (h : Int) : List UInt8 :=
  putUint32 (h % 2 ^ 32).toNat

/-- `keyWithSymbolToHeight`: the height stored in bytes 4..8 of a key, and `-1`
for a key shorter than eight bytes. -/
def keyWithSymbolToHeight (k : List UInt8) : Int :=
  if k.length < 8 then -1 else toInt32 (getUint32 (k.drop 4))

@[simp] theorem putUint32_length (n : Nat) : (putUint32 n).length = 4 := rfl

@[simp] theorem heightToKey_length (h : Int) : (heightToKey h).length = 4 := rfl

@[simp] theorem metaBlockIndex_length : metaBlockIndex.length = 4 := rfl

/-! ## Heights in keys

A height is written as the four bytes of `uint32(h)`, most significant first.
The byte arithmetic is done on the `Nat` values of the bytes. -/

@[simp] theorem toNat_ofNat_byte (n : Nat) : (UInt8.ofNat n).toNat = n % 256 := by
  simp [UInt8.toNat, UInt8.ofNat, BitVec.toNat_ofNat]

theorem byte_lt_iff {a b : UInt8} : a < b ↔ a.toNat < b.toNat := by
  simp [UInt8.lt_def, BitVec.lt_def, UInt8.toNat]

/-- Bytewise order decides at the first byte that differs. -/
theorem cons_lt_cons {a b : UInt8} {as bs : List UInt8}
    (h : a.toNat < b.toNat ∨ a.toNat = b.toNat ∧ List.lt as bs) : List.lt (a :: as) (b :: bs) := by
  rcases h with h | ⟨h, hs⟩
  · exact List.lt.head _ _ (byte_lt_iff.mpr h)
  · exact List.lt.tail (by rw [byte_lt_iff]; omega) (by rw [byte_lt_iff]; omega) hs

theorem append_lt_append_left (t : List UInt8) {as bs : List UInt8} (h : List.lt as bs) :
    List.lt (t ++ as) (t ++ bs) := by
  induction t with
  | nil => exact h
  | cons x t ih => exact cons_lt_cons (.inr ⟨rfl, ih⟩)

theorem getUint32_putUint32 {n : Nat} (hn : n < 2 ^ 32) (s : List UInt8) :
    getUint32 (putUint32 n ++ s) = n := by
  simp only [putUint32, List.map, List.cons_append, List.nil_append, getUint32, toNat_ofNat_byte]
  omega

/-- Four bytes compare bytewise as the big-endian numbers they spell,
whatever follows them. -/
theorem bytes4_append_lt {a₀ a₁ a₂ a₃ b₀ b₁ b₂ b₃ : UInt8}
    (h : getUint32 [a₀, a₁, a₂, a₃] < getUint32 [b₀, b₁, b₂, b₃]) (s₁ s₂ : List UInt8) :
    List.lt (a₀ :: a₁ :: a₂ :: a₃ :: s₁) (b₀ :: b₁ :: b₂ :: b₃ :: s₂) := by
  simp only [getUint32] at h
  have : a₀.toNat < 256 := a₀.toNat_lt_size
  have : a₁.toNat < 256 := a₁.toNat_lt_size
  have : a₂.toNat < 256 := a₂.toNat_lt_size
  have : a₃.toNat < 256 := a₃.toNat_lt_size
  have : b₁.toNat < 256 := b₁.toNat_lt_size
  have : b₂.toNat < 256 := b₂.toNat_lt_size
  have : b₃.toNat < 256 := b₃.toNat_lt_size
  refine cons_lt_cons ((Nat.lt_or_ge _ _).imp_right fun h0 => ⟨by omega, cons_lt_cons ?_⟩)
  refine (Nat.lt_or_ge _ _).imp_right fun h1 => ⟨by omega, cons_lt_cons ?_⟩
  refine (Nat.lt_or_ge _ _).imp_right fun h2 => ⟨by omega, cons_lt_cons (.inl (by omega))⟩

/-- The big-endian bytes of two numbers below `2 ^ 32` compare as the numbers,
whatever follows them. -/
theorem putUint32_append_lt {n₁ n₂ : Nat} (h : n₁ < n₂) (h₂ : n₂ < 2 ^ 32) (s₁ s₂ : List UInt8) :
    List.lt (putUint32 n₁ ++ s₁) (putUint32 n₂ ++ s₂) := by
  have e₁ := getUint32_putUint32 (by omega : n₁ < 2 ^ 32) []
  have e₂ := getUint32_putUint32 h₂ []
  simp only [putUint32, List.map, List.cons_append, List.nil_append] at e₁ e₂ ⊢
  exact bytes4_append_lt (by rw [e₁, e₂]; exact h) s₁ s₂

theorem height_key_roundTrip_and_order :
    (∀ h : Int, -2 ^ 31 ≤ h → h < 2 ^ 31 → ∀ t s : List UInt8, t.length = 4 →
      keyWithSymbolToHeight (t ++ heightToKey h ++ s) = h) ∧
    ∀ h₁ h₂ : Int, 0 ≤ h₁ → h₁ < h₂ → h₂ < 2 ^ 31 →
      List.lt (heightToKey h₁) (heightToKey h₂) ∧
        ∀ t s₁ s₂ : List UInt8, List.lt (t ++ heightToKey h₁ ++ s₁) (t ++ heightToKey h₂ ++ s₂) := by
  refine ⟨fun h hlo hhi t s ht => ?_, fun h₁ h₂ h0 h12 h2 => ?_⟩
  · have hk : (h % 2 ^ 32).toNat < 2 ^ 32 := by omega
    rw [keyWithSymbolToHeight, if_neg (by simp only [List.length_append, ht, heightToKey_length]; omega),
      List.append_assoc, List.drop_left' ht,
      heightToKey, getUint32_putUint32 hk, toInt32]
    split_ifs <;> omega
  · have hlt : (h₁ % 2 ^ 32).toNat < (h₂ % 2 ^ 32).toNat := by omega
    have hk : (h₂ % 2 ^ 32).toNat < 2 ^ 32 := by omega
    refine ⟨by simpa using putUint32_append_lt hlt hk [] [], fun t s₁ s₂ => ?_⟩
    rw [List.append_assoc, List.append_assoc]
    exact append_lt_append_left t (putUint32_append_lt hlt hk s₁ s₂)

/-- The ack key of height `-1` reads back `-1`, and heights `255` and `256`,
which differ in their last two bytes, sort in order. -/
theorem height_key_roundTrip_and_order_at_boundary :
    keyWithSymbolToHeight (metaAckIndex ++ heightToKey (-1) ++ [7]) = -1 ∧
      List.lt (heightToKey 255) (heightToKey 256) :=
  ⟨height_key_roundTrip_and_order.1 (-1) (by decide) (by decide) _ _ rfl,
    (height_key_roundTrip_and_order.2 255 256 (by decide) (by decide) (by decide)).1⟩

end SqlChain
