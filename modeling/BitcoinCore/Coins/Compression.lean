import BitcoinCore.Coins.Cache

/-!
# Coins on disk

A coin is stored as a number for its height and whether it is from a coinbase, an
amount without its trailing zeros, and a script. Six kinds of script have a shorter
form, whose numbers stand before the lengths of the other scripts.

Amounts up to `maxMoney` are compressed without leaving the range of 64 bits
and decompressed again (`compressAmountWith_eq`), scripts are read back
(`reads_serScript`), and so a coin that is written is read back from exactly the bytes
that were written (`coin_readBack`).
-/

namespace BitcoinCore.Coins

open ByteStream Serialize List Nat

/-! ## Amounts -/

def maxMoney : ℕ := 21000000 * 100000000

def wrap64 (n : ℕ) : ℕ := n % 2 ^ 64

/-- Divide by ten while the last digit is zero, a given number of times at most; the
divisions are counted. -/
def stripZeros : ℕ → ℕ → ℕ → ℕ × ℕ
  | 0, n, e => (n, e)
  | rounds + 1, n, e => if n % 10 = 0 then stripZeros rounds (n / 10) (e + 1) else (n, e)

/-- `compressAmount` for any result of arithmetic above 64 bits. The assertion on the
last digit can fail. -/
def compressAmountWith (wrap : ℕ → ℕ) (n : ℕ) : Option ℕ :=
  if n = 0 then some 0
  else
    let (n, e) := stripZeros 9 n 0
    if e < 9 then
      let d := n % 10
      if 1 ≤ d ∧ d ≤ 9 then
        let n := n / 10
        some (wrap (wrap (1 + wrap ((wrap (wrap (n * 9) + d) - 1) * 10)) + e))
      else none
    else some (wrap (wrap (1 + wrap ((n - 1) * 10)) + 9))

def compressAmount : ℕ → Option ℕ := compressAmountWith wrap64

def appendZeros : ℕ → ℕ → ℕ
  | 0, n => n
  | e + 1, n => appendZeros e (wrap64 (n * 10))

def decompressAmount (x : ℕ) : ℕ :=
  if x = 0 then 0
  else
    let x := x - 1
    let e := x % 10
    let x := x / 10
    let n :=
      if e < 9 then
        let d := x % 9 + 1
        let x := x / 9
        wrap64 (wrap64 (x * 10) + d)
      else wrap64 (x + 1)
    appendZeros e n

theorem stripZeros_spec (rounds : ℕ) {n : ℕ} (e : ℕ) (pos : 0 < n) :
    ∃ m zeros, stripZeros rounds n e = (m, e + zeros) ∧ n = m * 10 ^ zeros ∧ zeros ≤ rounds ∧
      (zeros < rounds → m % 10 ≠ 0) := by
  induction rounds generalizing n e with
  | zero => exact ⟨n, 0, rfl, by simp, le_rfl, by simp⟩
  | succ rounds ih =>
    rw [stripZeros]
    split
    case isTrue zero =>
      have quotient : 0 < n / 10 := by omega
      obtain ⟨m, zeros, stripped, value, bound, last⟩ := ih (e + 1) quotient
      refine ⟨m, zeros + 1, ?_, ?_, by omega, ?_⟩
      · rw [stripped, add_assoc, add_comm 1]
      · rw [pow_succ, ← mul_assoc, ← value]
        omega
      · intro fewer
        exact last (by omega)
    case isFalse last => exact ⟨n, 0, rfl, by simp, by omega, fun _ => last⟩

theorem appendZeros_eq {e n : ℕ} (fits : n * 10 ^ e < 2 ^ 64) : appendZeros e n = n * 10 ^ e := by
  induction e generalizing n with
  | zero => simp [appendZeros]
  | succ e ih =>
    have shifted : n * 10 * 10 ^ e = n * 10 ^ (e + 1) := by
      rw [mul_assoc, ← pow_succ']
    rw [← shifted] at fits ⊢
    have small : n * 10 < 2 ^ 64 :=
      lt_of_le_of_lt (Nat.le_mul_of_pos_right _ (Nat.pow_pos (by decide))) fits
    rw [appendZeros, wrap64, mod_eq_of_lt small, ih fits]

theorem decompressAmount_digit {m zeros : ℕ} (few : zeros < 9) (last : m % 10 ≠ 0)
    (fits : m * 10 ^ zeros < 2 ^ 64) :
    decompressAmount (1 + (m / 10 * 9 + m % 10 - 1) * 10 + zeros) = m * 10 ^ zeros := by
  have small : m < 2 ^ 64 :=
    lt_of_le_of_lt (Nat.le_mul_of_pos_right _ (Nat.pow_pos (by decide))) fits
  have nonzero : 1 + (m / 10 * 9 + m % 10 - 1) * 10 + zeros ≠ 0 := by omega
  have exponent : (1 + (m / 10 * 9 + m % 10 - 1) * 10 + zeros - 1) % 10 = zeros := by omega
  have digits : (1 + (m / 10 * 9 + m % 10 - 1) * 10 + zeros - 1) / 10 =
      m / 10 * 9 + m % 10 - 1 := by omega
  have digit : (m / 10 * 9 + m % 10 - 1) % 9 + 1 = m % 10 := by omega
  have front : (m / 10 * 9 + m % 10 - 1) / 9 = m / 10 := by omega
  rw [decompressAmount, if_neg nonzero]
  simp only [exponent, digits, if_pos few, digit, front]
  rw [wrap64, wrap64, mod_eq_of_lt (by omega : m / 10 * 10 < 2 ^ 64), div_add_mod' m 10,
    mod_eq_of_lt small, appendZeros_eq fits]

theorem decompressAmount_nine {m : ℕ} (pos : 0 < m) (fits : m * 10 ^ 9 < 2 ^ 64) :
    decompressAmount (1 + (m - 1) * 10 + 9) = m * 10 ^ 9 := by
  have nonzero : 1 + (m - 1) * 10 + 9 ≠ 0 := by omega
  have exponent : (1 + (m - 1) * 10 + 9 - 1) % 10 = 9 := by omega
  have number : (1 + (m - 1) * 10 + 9 - 1) / 10 + 1 = m := by omega
  rw [decompressAmount, if_neg nonzero]
  simp only [exponent, lt_irrefl, if_false, number]
  rw [wrap64, mod_eq_of_lt (by omega : m < 2 ^ 64), appendZeros_eq fits]

/-- Amounts are compressed without overflow, and decompressed again. No step of
the computation depends on what arithmetic does from 2 ^ 64 on. -/
theorem compressAmountWith_eq {n : ℕ} (range : n ≤ maxMoney) :
    ∃ x < 2 ^ 64, decompressAmount x = n ∧ ∀ wrap : ℕ → ℕ, (∀ value < 2 ^ 64, wrap value = value) →
        compressAmountWith wrap n = some x := by
  rw [maxMoney] at range
  rcases Nat.eq_zero_or_pos n with rfl | pos
  · exact ⟨0, by decide, rfl, fun wrap _ => rfl⟩
  · obtain ⟨m, zeros, stripped, value, bound, last⟩ := stripZeros_spec 9 0 pos
    rw [zero_add] at stripped
    have fits : m * 10 ^ zeros < 2 ^ 64 := by omega
    have smaller : m ≤ n := value ▸ Nat.le_mul_of_pos_right _ (Nat.pow_pos (by decide))
    rcases bound.lt_or_eq with few | rfl
    · have digit := last few
      refine ⟨1 + (m / 10 * 9 + m % 10 - 1) * 10 + zeros, by omega, ?_, ?_⟩
      · rw [decompressAmount_digit few digit fits, value]
      · intro wrap within
        rw [compressAmountWith, if_neg pos.ne', stripped]
        simp only [if_pos few]
        rw [if_pos (by omega), within (m / 10 * 9) (by omega),
          within (m / 10 * 9 + m % 10) (by omega),
          within ((m / 10 * 9 + m % 10 - 1) * 10) (by omega),
          within (1 + (m / 10 * 9 + m % 10 - 1) * 10) (by omega), within _ (by omega)]
    · have nonzero : 0 < m := by
        rcases Nat.eq_zero_or_pos m with rfl | nonzero
        · omega
        · exact nonzero
      refine ⟨1 + (m - 1) * 10 + 9, by omega, ?_, ?_⟩
      · rw [decompressAmount_nine nonzero fits, value]
      · intro wrap within
        rw [compressAmountWith, if_neg pos.ne', stripped]
        simp only [lt_irrefl, if_false]
        rw [within ((m - 1) * 10) (by omega), within (1 + (m - 1) * 10) (by omega),
          within _ (by omega)]

/-- One coin is the digit 1 before eight zeros. -/
example : compressAmount 100000000 = some 9 := by decide

/-! ## Scripts -/

def opDup : Byte := 0x76

def opEqual : Byte := 0x87

def opEqualVerify : Byte := 0x88

def opHash160 : Byte := 0xa9

def opCheckSig : Byte := 0xac

/-- The operations on public keys that scripts are compressed with. A key is a list
of bytes whose first one says its form. -/
structure PublicKeys where
  isFullyValid : List Byte → Bool
  decompress : List Byte → Option { key : List Byte // key.length = 65 }
  /-- A valid key is decompressed from its first coordinate and the parity of the
  second one. -/
  decompress_of_isFullyValid : ∀ key : { key : List Byte // key.length = 65 },
    key.val[0]? = some 0x04 → isFullyValid key.val →
      decompress ((0x02 ||| (key.val.getD 64 0 &&& 0x01)) :: (key.val.drop 1).take 32) = some key

def isToKeyID (script : CScript) : Option (List Byte) :=
  if script.length = 25 ∧ script.take 3 = [opDup, opHash160, 20] ∧
      script.drop 23 = [opEqualVerify, opCheckSig] then
    some ((script.drop 3).take 20)
  else none

def isToScriptID (script : CScript) : Option (List Byte) :=
  if script.length = 23 ∧ script.take 2 = [opHash160, 20] ∧ script.drop 22 = [opEqual] then
    some ((script.drop 2).take 20)
  else none

section

variable (keys : PublicKeys) (script : CScript)

/-- The key of a script that pays to a key. A key that is not compressed must be
valid. -/
def isToPubKey : Option (List Byte) :=
  if script.length = 35 ∧ script.take 1 = [33] ∧ script.drop 34 = [opCheckSig] ∧
      (script[1]? = some 0x02 ∨ script[1]? = some 0x03) then
    some ((script.drop 1).take 33)
  else if script.length = 67 ∧ script.take 1 = [65] ∧ script.drop 66 = [opCheckSig] ∧
      script[1]? = some 0x04 then
    if keys.isFullyValid ((script.drop 1).take 65) then some ((script.drop 1).take 65) else none
  else none

def compressScript : Option (List Byte) :=
  match isToKeyID script with
  | some keyID => some (0x00 :: keyID)
  | none =>
    match isToScriptID script with
    | some scriptID => some (0x01 :: scriptID)
    | none =>
      match isToPubKey keys script with
      | none => none
      | some pubkey =>
        let hdr := pubkey.getD 0 0
        if hdr = 0x02 ∨ hdr = 0x03 then some (hdr :: (pubkey.drop 1).take 32)
        else if hdr = 0x04 then
          some ((0x04 ||| (pubkey.getD 64 0 &&& 0x01)) :: (pubkey.drop 1).take 32)
        else none

def getSpecialScriptSize (nSize : ℕ) : ℕ :=
  if nSize = 0 ∨ nSize = 1 then 20
  else if nSize = 2 ∨ nSize = 3 ∨ nSize = 4 ∨ nSize = 5 then 32
  else 0

def decompressScript (nSize : ℕ) (bytes : List Byte) : Option CScript :=
  match nSize with
  | 0 => some ([opDup, opHash160, 20] ++ bytes.take 20 ++ [opEqualVerify, opCheckSig])
  | 1 => some ([opHash160, 20] ++ bytes.take 20 ++ [opEqual])
  | 2 | 3 => some ([33, BitVec.ofNat 8 nSize] ++ bytes.take 32 ++ [opCheckSig])
  | 4 | 5 =>
    match keys.decompress (BitVec.ofNat 8 (nSize - 2) :: bytes.take 32) with
    | none => none
    | some pubkey => some ([65] ++ pubkey.val ++ [opCheckSig])
  | _ => none

def nSpecialScripts : ℕ := 6

def serScript : List Byte :=
  match compressScript keys script with
  | some compr => compr
  | none => writeVarInt (script.length + nSpecialScripts) ++ script

def readBytes (count : ℕ) : Unserialize (List Byte) := readMany (readByte .endOfData) count

/-- `ScriptCompression::Unser`, over a script that is already there. -/
def unserScript : Unserialize CScript := do
  let nSize ← readVarInt 32
  if nSize < nSpecialScripts then
    let vch ← readBytes (getSpecialScriptSize nSize)
    -- A failure is not looked at, and leaves the script as it is.
    pure ((decompressScript keys nSize vch).getD script)
  else
    let nSize := nSize - nSpecialScripts
    if maxScriptSize < nSize then
      let _ ← readBytes nSize
      pure (script ++ [opReturn])
    else readBytes nSize

variable {keys} {script : CScript}

theorem eq_framed (script : CScript) (front size : ℕ) :
    script.take front ++ (script.drop front).take size ++ script.drop (front + size) = script := by
  rw [append_assoc, ← drop_drop, take_append_drop, take_append_drop]

variable (keys) in
structure ShortForm (nSize : ℕ) (bytes : List Byte) (script : CScript) : Prop where
  isSpecial : nSize < nSpecialScripts
  length : bytes.length = getSpecialScriptSize nSize
  decompresses : decompressScript keys nSize bytes = some script

theorem shortForm_keyID {keyID : List Byte}
    (found : isToKeyID script = some keyID) : ShortForm keys 0 keyID script := by
  rw [isToKeyID, Option.ite_none_right_eq_some] at found
  obtain ⟨⟨length, front, back⟩, taken⟩ := found
  rw [Option.some.injEq] at taken
  subst taken
  refine ⟨by decide, ?_, ?_⟩
  · simp [getSpecialScriptSize, length]
  · have framed := eq_framed script 3 20
    rw [front, back] at framed
    rw [decompressScript, take_take, min_self, framed]

theorem shortForm_scriptID {scriptID : List Byte}
    (found : isToScriptID script = some scriptID) : ShortForm keys 1 scriptID script := by
  rw [isToScriptID, Option.ite_none_right_eq_some] at found
  obtain ⟨⟨length, front, back⟩, taken⟩ := found
  rw [Option.some.injEq] at taken
  subst taken
  refine ⟨by decide, ?_, ?_⟩
  · simp [getSpecialScriptSize, length]
  · have framed := eq_framed script 2 20
    rw [front, back] at framed
    rw [decompressScript, take_take, min_self, framed]

variable {hdr : Byte}

theorem key_split {size : ℕ} (first : script[1]? = some hdr) :
    (script.drop 1).take (size + 1) = hdr :: (script.drop 2).take size := by
  have split : script.drop 1 = hdr :: script.drop 2 := by
    obtain ⟨inside, here⟩ := List.getElem?_eq_some_iff.mp first
    rw [drop_eq_getElem_cons inside, here]
  rw [split, take_succ_cons]

theorem isToPubKey_cases {pubkey : List Byte} (found : isToPubKey keys script = some pubkey) :
    ∃ hdr rest, pubkey = hdr :: rest ∧ ((hdr = 0x02 ∨ hdr = 0x03) ∧ rest.length = 32 ∧
          [33] ++ (hdr :: rest) ++ [opCheckSig] = script ∨
        hdr = 0x04 ∧ rest.length = 64 ∧ keys.isFullyValid (hdr :: rest) ∧
          [65] ++ (hdr :: rest) ++ [opCheckSig] = script) := by
  rw [isToPubKey] at found
  split at found
  case isTrue compressed =>
    obtain ⟨length, front, back, headers⟩ := compressed
    obtain ⟨hdr, known, first⟩ : ∃ hdr : Byte, (hdr = 0x02 ∨ hdr = 0x03) ∧
        script[1]? = some hdr := by
      rcases headers with first | first
      · exact ⟨0x02, .inl rfl, first⟩
      · exact ⟨0x03, .inr rfl, first⟩
    have framed := eq_framed script 1 33
    rw [front, back, key_split first] at framed
    rw [key_split first] at found
    cases found
    refine ⟨hdr, _, rfl, .inl ⟨known, ?_, framed⟩⟩
    simp [length]
  case isFalse =>
    split at found
    case isFalse => cases found
    case isTrue whole =>
      obtain ⟨length, front, back, first⟩ := whole
      have framed := eq_framed script 1 65
      rw [front, back, key_split first] at framed
      rw [Option.ite_none_right_eq_some, key_split first] at found
      obtain ⟨valid, taken⟩ := found
      cases taken
      refine ⟨0x04, _, rfl, .inr ⟨rfl, ?_, valid, framed⟩⟩
      simp [length]

theorem parity_cases : ∀ byte : Byte, byte &&& 0x01 = 0x00 ∨ byte &&& 0x01 = 0x01 := by
  decide

theorem shortForm_pubKey {rest : List Byte} (known : hdr = 0x02 ∨ hdr = 0x03)
    (length : rest.length = 32) :
    ShortForm keys hdr.toNat rest ([33] ++ (hdr :: rest) ++ [opCheckSig]) := by
  have whole : rest.take 32 = rest := take_of_length_le length.le
  rcases known with rfl | rfl
  · exact ⟨by decide, length, by simp [decompressScript, whole]⟩
  · exact ⟨by decide, length, by simp [decompressScript, whole]⟩

theorem shortForm_wholeKey {rest : List Byte} (length : rest.length = 64)
    (valid : keys.isFullyValid (0x04 :: rest)) :
    ShortForm keys (0x04 ||| ((0x04 :: rest).getD 64 0 &&& 0x01) : Byte).toNat (rest.take 32)
      ([65] ++ (0x04 :: rest) ++ [opCheckSig]) := by
  have inverse := keys.decompress_of_isFullyValid ⟨0x04 :: rest, by simp [length]⟩ rfl valid
  have half : (rest.take 32).length = 32 := by simp [length]
  rw [drop_one, tail_cons] at inverse
  rcases parity_cases ((0x04 :: rest).getD 64 0) with parity | parity
  all_goals
    rw [parity] at inverse ⊢
    refine ⟨by decide, half, ?_⟩
    show (match keys.decompress (_ :: (rest.take 32).take 32) with
      | none => none
      | some pubkey => some ([65] ++ pubkey.val ++ [opCheckSig])) = _
    rw [take_take, min_self]
    split
    · next missing => cases missing.symm.trans inverse
    · next pubkey found =>
      cases found.symm.trans inverse
      rfl

/-- Short forms are decompressed to the script they stand for. -/
theorem shortForm_of_compressScript {compr : List Byte}
    (compressed : compressScript keys script = some compr) :
    ∃ hdr bytes, compr = hdr :: bytes ∧ ShortForm keys hdr.toNat bytes script := by
  rw [compressScript] at compressed
  split at compressed
  case h_1 keyID found =>
    cases compressed
    exact ⟨_, _, rfl, shortForm_keyID found⟩
  case h_2 =>
    split at compressed
    case h_1 scriptID found =>
      cases compressed
      exact ⟨_, _, rfl, shortForm_scriptID found⟩
    case h_2 =>
      split at compressed
      case h_1 => cases compressed
      case h_2 pubkey found =>
        obtain ⟨hdr, rest, rfl, forms⟩ := isToPubKey_cases found
        simp only [getD_cons_zero, drop_one, tail_cons] at compressed
        rcases forms with ⟨known, length, rfl⟩ | ⟨rfl, length, valid, rfl⟩
        · rw [if_pos known, take_of_length_le length.le] at compressed
          cases compressed
          exact ⟨hdr, rest, rfl, shortForm_pubKey known length⟩
        · rw [if_neg (by decide), if_pos rfl] at compressed
          cases compressed
          exact ⟨_, _, rfl, shortForm_wholeKey length valid⟩

theorem reads_readBytes (bytes : List Byte) : Reads (readBytes bytes.length) bytes bytes := by
  have reads : Reads (readBytes bytes.length) (bytes.flatMap fun byte => [byte]) bytes :=
    reads_readMany fun byte _ => reads_readByte ReadFailure.endOfData byte
  rwa [flatMap_singleton'] at reads

theorem writeVarInt_byte (small : hdr.toNat < nSpecialScripts) :
    writeVarInt hdr.toNat = [hdr] := by
  have byte : ∀ hdr : Byte, hdr.toNat < nSpecialScripts →
      BitVec.ofNat 8 (hdr.toNat &&& 0x7f) ||| 0x00#8 = hdr := by decide
  have least : hdr.toNat ≤ 0x7f := small.le.trans (by decide)
  rw [writeVarInt, writeVarIntLoop]
  simp only [↓reduceIte, if_pos least, byte hdr small]

/-- Scripts are read back, whatever stands in the place they are read to. -/
theorem reads_serScript (length : script.length ≤ maxScriptSize)
    (initial : CScript) : Reads (unserScript keys initial) (serScript keys script) script := by
  rw [serScript]
  cases compressed : compressScript keys script with
  | some compr =>
    obtain ⟨hdr, bytes, rfl, special, size, decompresses⟩ :=
      shortForm_of_compressScript compressed
    have fits : hdr.toNat < 2 ^ 32 := hdr.isLt.trans (by decide)
    have reads := reads_writeVarInt fits
    rw [writeVarInt_byte special] at reads
    rw [unserScript]
    refine reads.bind ?_
    rw [if_pos special, ← append_nil bytes, ← size]
    refine (reads_readBytes bytes).bind ?_
    rw [decompresses]
    exact Reads.pure script
  | none =>
    rw [maxScriptSize] at length
    have fits : script.length + nSpecialScripts < 2 ^ 32 := by
      rw [nSpecialScripts]
      omega
    rw [unserScript]
    refine (reads_writeVarInt fits).bind ?_
    rw [if_neg (Nat.not_lt.mpr (Nat.le_add_left _ _)), Nat.add_sub_cancel]
    rw [if_neg (not_lt.mpr (by exact length))]
    exact reads_readBytes script

end

/-! ## Coins -/

section Coins

variable (keys : PublicKeys)

/-- `AmountCompression::Ser`. A negative amount would be taken for one above
2 ^ 63. -/
def serAmount (val : ℤ) : Option (List Byte) :=
  (compressAmount (val % 2 ^ 64).toNat).map writeVarInt

def unserAmount : Unserialize ℤ := do
  let v ← readVarInt 64
  pure (Int.bmod (decompressAmount v) (2 ^ 64))

def serializeCoin (coin : Coin) : Option (List Byte) :=
  if coin.isSpent then none
  else
    let code := (coin.nHeight * 2 + if coin.fCoinBase then 1 else 0) % 2 ^ 32
    (serAmount coin.out.nValue).map fun amount =>
      writeVarInt code ++ (amount ++ serScript keys coin.out.scriptPubKey)

/-- `Coin::Unserialize`, over a coin that is already there. -/
def unserializeCoin (coin : Coin) : Unserialize Coin := do
  let code ← readVarInt 32
  let nValue ← unserAmount
  let scriptPubKey ← unserScript keys coin.out.scriptPubKey
  pure
    { out := { nValue, scriptPubKey }
      fCoinBase := code &&& 1 = 1
      nHeight := code >>> 1 }

/-- Amounts are read back. -/
theorem reads_serAmount {val : ℤ} (pos : 0 ≤ val) (range : val ≤ maxMoney) :
    ∃ bytes, serAmount val = some bytes ∧ Reads unserAmount bytes val := by
  obtain ⟨n, rfl⟩ := Int.eq_ofNat_of_zero_le pos
  have range' : n ≤ maxMoney := by exact_mod_cast range
  obtain ⟨x, fits, inverse, compressed⟩ := compressAmountWith_eq range'
  have small : n < 2 ^ 63 := lt_of_le_of_lt range' (by decide)
  have word : ((n : ℤ) % 2 ^ 64).toNat = n := by omega
  refine ⟨writeVarInt x, ?_, ?_⟩
  · rw [serAmount, word, compressAmount, compressed wrap64 fun value fits => mod_eq_of_lt fits]
    rfl
  · rw [unserAmount, ← append_nil (writeVarInt x)]
    refine (reads_writeVarInt fits).bind ?_
    have signed : Int.bmod (n : ℤ) (2 ^ 64) = n := Int.bmod_eq_of_le (by omega) (by omega)
    rw [inverse, signed]
    exact Reads.pure _

theorem code_split {nHeight : ℕ} (range : nHeight < 2 ^ 31) (fCoinBase : Bool) :
    let code := nHeight * 2 + if fCoinBase then 1 else 0
    code < 2 ^ 32 ∧ code >>> 1 = nHeight ∧ decide (code &&& 1 = 1) = fCoinBase := by
  simp only [shiftRight_eq_div_pow, and_one_is_mod]
  cases fCoinBase <;> simp <;> omega

/-- Coins are read back from the database. A coin with an amount in range and a
script that is not too long is read back, over any coin, from exactly the bytes it
was written to. Compressing an amount up to `maxMoney` stays in the range of 64 bits
at every step, and decompressing inverts it. -/
theorem coin_readBack : (∀ coin initial : Coin, 0 ≤ coin.out.nValue → coin.out.nValue ≤ maxMoney →
      coin.nHeight < 2 ^ 31 → coin.out.scriptPubKey.length ≤ maxScriptSize →
      ∃ bytes, serializeCoin keys coin = some bytes ∧
        Reads (unserializeCoin keys initial) bytes coin) ∧
    (∀ n ≤ maxMoney, ∃ x < 2 ^ 64, compressAmount n = some x ∧ decompressAmount x = n ∧
      ∀ wrap : ℕ → ℕ, (∀ value < 2 ^ 64, wrap value = value) →
        compressAmountWith wrap n = some x) := by
  refine ⟨?_, ?_⟩
  · intro coin initial pos range height length
    obtain ⟨amount, written, reads⟩ := reads_serAmount pos range
    obtain ⟨codeFits, codeHeight, codeFlag⟩ := code_split height coin.fCoinBase
    have unspent : coin.isSpent = false := by
      rw [Coin.isSpent, CTxOut.isNull, decide_eq_false_iff_not]
      omega
    have serialized : serializeCoin keys coin =
        some (writeVarInt (coin.nHeight * 2 + if coin.fCoinBase then 1 else 0) ++
          (amount ++ serScript keys coin.out.scriptPubKey)) := by
      rw [serializeCoin, unspent, if_neg (by decide), written, mod_eq_of_lt codeFits]
      rfl
    refine ⟨_, serialized, ?_⟩
    rw [unserializeCoin]
    refine (reads_writeVarInt codeFits).bind (reads.bind ?_)
    rw [← append_nil (serScript keys _)]
    refine (reads_serScript length _).bind ?_
    rw [codeHeight, codeFlag]
    exact Reads.pure coin
  · intro n range
    obtain ⟨x, fits, inverse, compressed⟩ := compressAmountWith_eq range
    exact ⟨x, fits, compressed wrap64 fun value fits => mod_eq_of_lt fits, inverse, compressed⟩

def generatorX : ℕ := 0x79BE667EF9DCBBAC55A06295CE870B07029BFCDB2DCE28D959F2815B16F81798

def generatorY : ℕ := 0x483ADA7726A3C4655DA4FBFC0E1108A8FD17B448A68554199C47D08FFB10D4B8

/-- The generator of secp256k1 as an uncompressed public key. -/
def generatorKey : List Byte :=
  0x04 :: (List.range 64).reverse.map fun place =>
    .ofNat 8 ((generatorX * 2 ^ 256 + generatorY) >>> (8 * place))

/-- Public keys of which only the generator is known to be on the curve. -/
def generatorOnly : PublicKeys where
  isFullyValid key := key = generatorKey
  decompress pubkey := if pubkey = 0x02 :: (generatorKey.drop 1).take 32 then
    some ⟨generatorKey, by decide⟩ else none
  decompress_of_isFullyValid := by
    rintro ⟨key, length⟩ - valid
    obtain rfl := of_decide_eq_true valid
    have even : (0x02 ||| (generatorKey.getD 64 0 &&& 0x01) : Byte) = 0x02 := by decide
    exact if_pos (congrArg (· :: _) even)

def payToKeyCoin : Coin where
  out := { nValue := 5000000000, scriptPubKey := [65] ++ generatorKey ++ [opCheckSig] }
  fCoinBase := true
  nHeight := 9

/-- The generator is a point of the curve, and the script is written in its short form. -/
theorem coin_readBack_payToKey :
    generatorY ^ 2 % (2 ^ 256 - 2 ^ 32 - 977) = (generatorX ^ 3 + 7) % (2 ^ 256 - 2 ^ 32 - 977) ∧
      serScript generatorOnly payToKeyCoin.out.scriptPubKey =
        0x04 :: (generatorKey.drop 1).take 32 ∧
      ∃ bytes, serializeCoin generatorOnly payToKeyCoin = some bytes ∧
        Reads (unserializeCoin generatorOnly Coin.null) bytes payToKeyCoin := by
  refine ⟨by decide, by decide, (coin_readBack generatorOnly).1 payToKeyCoin Coin.null ?_ ?_ ?_ ?_⟩
  all_goals decide

end Coins

end BitcoinCore.Coins
