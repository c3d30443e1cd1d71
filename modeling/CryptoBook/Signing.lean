import CryptoBook.Numerals
import CryptoBook.TextSearch
import Mathlib.Tactic.NormNum

/-! # Hosts and order parameters

`exchange/signing.cpp`: the host of a URL, the hosts that may be signed against, scaled
integers as decimal text, and the ids that orders carry.

`HostOf` cuts its text four times.  The first cut looks for `://` in the whole text, the
others only look at what is left of it, so they can be described together: `authorityHost`
finds the host of `[userinfo@]host[:port][suffix]` whatever these parts contain
(`authorityHost_eq_iff`).

`ScaledToDecimal` computes with `u64`.  Up to 19 places the divisor does not wrap, and the
text is a numeral with exactly so many places (`scaledToDecimal_spell`).

A client id is a prefix, a dash and a number.  The number holds no dash, so the last dash
of an id tells where its prefix ends (`client_ids_unambiguous`). -/
namespace Asmm
open TextSearch Numerals Numeral

/-! ## Hosts -/

/-- What `HostOf` does behind the scheme. -/
def authorityHost (rest : List Char) : List Char :=
  let authority := upTo (rest.findIdx? (· ∈ ['/', '?', '#'])) rest
  let authority := behind 1 (rfind '@' authority) authority
  upTo (rfind ':' authority) authority

/-- `HostOf`. -/
def hostOf (url : List Char) : List Char :=
  authorityHost (behind 3 (find [':', '/', '/'] url) url)

/-- `IsTestnetOrderHost`. -/
def isTestnetOrderHost (host : List Char) : Bool :=
  host == "testnet.binance.vision".toList || host == "api1.testnet.binance.vision".toList ||
    host == "api2.testnet.binance.vision".toList || host == "api3.testnet.binance.vision".toList ||
    host == "api4.testnet.binance.vision".toList

theorem plain_of_all {set s : List Char} (h : s.all (fun c => !set.contains c) = true) :
    ∀ c ∈ s, c ∉ set := by
  simpa using h

/-- `rest` is `[userinfo@]host[:port][suffix]`. -/
def HasHost (host rest : List Char) : Prop :=
  ∃ user port suffix, rest = closedBy '@' user ++ (host ++ openedBy ':' port) ++ suffix ∧
    (∀ c ∈ user.getD [], c ∉ ['/', '?', '#']) ∧
    (∀ c ∈ port.getD [], c ∉ ['/', '?', '#', '@', ':']) ∧
    ∀ c ∈ suffix.head?, c ∈ ['/', '?', '#']

/-- **The host is found behind the scheme**, whatever stands in the other parts. -/
theorem authorityHost_eq_iff {host rest : List Char}
    (hhost : ∀ c ∈ host, c ∉ ['/', '?', '#', '@', ':']) :
    authorityHost rest = host ↔ HasHost host rest := by
  rw [authorityHost, upTo_rfind_eq_iff]
  simp only [behind_rfind_eq_iff, upTo_findIdx?_eq_iff, decide_eq_false_iff_not,
    decide_eq_true_iff, List.forall_mem_append]
  constructor
  · rintro ⟨port, ⟨hat, user, ⟨huser, -, hport⟩, suffix, rfl, hsuffix⟩, hcolon, -⟩
    refine ⟨user, port, suffix, rfl, fun c hc => huser c (mem_closedBy hc), fun c hc => ?_, hsuffix⟩
    have hend := hport c (mem_openedBy hc)
    have hne : c ≠ '@' := fun h => hat (List.mem_append_right host (h ▸ mem_openedBy hc))
    have hne' : c ≠ ':' := fun h => hcolon (h ▸ hc)
    simpa [hne, hne'] using hend
  · rintro ⟨user, port, suffix, rfl, huser, hport, hsuffix⟩
    refine ⟨port, ⟨?_, user, ⟨fun c hc => ?_, fun c hc => ?_, fun c hc => ?_⟩, suffix, rfl,
      hsuffix⟩, fun hc => hport _ hc (by simp), fun _ hc => hhost _ hc (by simp)⟩
    · rw [List.mem_append, not_or]
      refine ⟨fun hc => hhost _ hc (by simp), fun hc => ?_⟩
      rcases of_mem_openedBy hc with hc | hc
      · exact hport _ hc (by simp)
      · cases hc
    · rcases of_mem_closedBy hc with hc | rfl
      · exact huser c hc
      · decide
    · exact fun h => hhost c hc (List.mem_append_left ['@', ':'] h)
    · rcases of_mem_openedBy hc with hc | rfl
      · exact fun h => hport c hc (List.mem_append_left ['@', ':'] h)
      · decide

/-! ## Decimals -/

/-- `std::to_string` of a `u64`. -/
def toStringU64 (n : UInt64) : List Char := Nat.toDigits 10 n.toNat

/-- `for (int i = 0; i < scale; ++i) divisor *= 10;`. -/
def divisorLoop : Nat → UInt64 → UInt64
  | 0, divisor => divisor
  | k + 1, divisor => divisorLoop k (divisor * 10)

/-- `ScaledToDecimal`.  There is no result if the divisor has wrapped to zero. -/
def scaledToDecimal (value : Int64) (scale : Int) : Option (List Char) :=
  let sign := if value < 0 then ['-'] else []
  -- also right for the least value, whose negation is no `i64`
  let mag := if value < 0 then (-(value + 1)).toUInt64 + 1 else value.toUInt64
  if scale ≤ 0 then some (sign ++ toStringU64 mag)
  else
    let divisor := divisorLoop scale.toNat 1
    if divisor = 0 then none
    else
      let whole := mag / divisor
      let frac := mag % divisor
      let fracStr := toStringU64 frac
      let fracStr :=
        if fracStr.length < scale.toNat then
          List.replicate (scale.toNat - fracStr.length) '0' ++ fracStr
        else fracStr
      some (sign ++ (toStringU64 whole ++ '.' :: fracStr))

theorem toNat_toUInt64 {x : Int64} (h : 0 ≤ x.toInt) : x.toUInt64.toNat = x.toInt.toNat :=
  Int64.toNat_toUInt64_of_le (Int64.le_iff_toInt_le.mpr h)

/-- The magnitude is computed without an overflow. -/
theorem magnitude_toNat (value : Int64) :
    (if value < 0 then (-(value + 1)).toUInt64 + 1 else value.toUInt64).toNat =
      value.toInt.natAbs := by
  have hmin := value.le_toInt
  by_cases hneg : value < 0
  · have hlt : value.toInt < 0 := Int64.lt_iff_toInt_lt.mp hneg
    have hsucc : (value + 1).toInt = value.toInt + 1 := by
      rw [Int64.toInt_add, Int64.toInt_one, Int.bmod_eq_of_le] <;> omega
    have hopp : (-(value + 1)).toInt = -(value.toInt + 1) := by
      rw [Int64.toInt_neg, hsucc, Int.bmod_eq_of_le] <;> omega
    have hmag : (-(value + 1)).toUInt64.toNat = (-(value.toInt + 1)).toNat := by
      rw [toNat_toUInt64 (by omega), hopp]
    rw [if_pos hneg, UInt64.toNat_add, hmag, UInt64.toNat_one]
    omega
  · have hle : 0 ≤ value.toInt := Int.not_lt.mp fun h => hneg (Int64.lt_iff_toInt_lt.mpr h)
    rw [if_neg hneg, toNat_toUInt64 hle]
    omega

theorem divisorLoop_toNat (k : Nat) (divisor : UInt64) :
    (divisorLoop k divisor).toNat = divisor.toNat * 10 ^ k % 2 ^ 64 := by
  induction k generalizing divisor with
  | zero => simp [divisorLoop, Nat.mod_eq_of_lt divisor.toNat_lt]
  | succ k ih =>
    rw [divisorLoop, ih, UInt64.toNat_mul]
    simp [Nat.pow_succ', Nat.mul_assoc]

/-- Filling up does nothing where no place is missing. -/
theorem pad_eq (width : Nat) (ds : List Char) :
    (if ds.length < width then List.replicate (width - ds.length) '0' ++ ds else ds) =
      List.replicate (width - ds.length) '0' ++ ds := by
  split
  · rfl
  · rw [Nat.sub_eq_zero_of_le (by omega)]
    rfl

/-- **What `ScaledToDecimal` writes** for one place or more: quotient and remainder by a
power of ten that wraps. -/
theorem scaledToDecimal_parts (value : Int64) {scale : Nat} (hscale : 0 < scale) :
    scaledToDecimal value scale =
      if 10 ^ scale % 2 ^ 64 = 0 then none
      else some (ofParts (decide (value < 0)) (value.toInt.natAbs / (10 ^ scale % 2 ^ 64))
        (value.toInt.natAbs % (10 ^ scale % 2 ^ 64)) scale).spell := by
  have hmag := magnitude_toNat value
  have hdivisor : (divisorLoop scale 1).toNat = 10 ^ scale % 2 ^ 64 := by
    rw [divisorLoop_toNat, UInt64.toNat_one, Nat.one_mul]
  have hzero : divisorLoop scale 1 = 0 ↔ 10 ^ scale % 2 ^ 64 = 0 := by
    rw [← hdivisor, ← UInt64.toNat_inj, UInt64.toNat_zero]
  rw [scaledToDecimal]
  dsimp only
  generalize (if value < 0 then (-(value + 1)).toUInt64 + 1 else value.toUInt64) = mag at hmag ⊢
  rw [if_neg (by omega), Int.toNat_natCast, pad_eq, toStringU64, toStringU64, UInt64.toNat_div,
    UInt64.toNat_mod, hmag, hdivisor]
  simp only [hzero, spell, ofParts, tail, padded, decide_eq_true_eq]

/-- Up to 19 places the text is the numeral of the value, with all places written out. -/
theorem scaledToDecimal_spell (value : Int64) {scale : Nat} (h : scale ≤ 19) :
    scaledToDecimal value scale =
      some (fixedPoint (decide (value < 0)) value.toInt.natAbs scale).spell := by
  rcases Nat.eq_zero_or_pos scale with rfl | hpos
  · rw [scaledToDecimal, if_pos (by decide), toStringU64, magnitude_toNat]
    simp [spell, fixedPoint, tail]
  · have hlt : 10 ^ scale < 2 ^ 64 :=
      Nat.lt_of_le_of_lt (Nat.pow_le_pow_right (by decide) h) (by decide)
    rw [scaledToDecimal_parts value hpos, Nat.mod_eq_of_lt hlt,
      if_neg (Nat.pow_pos (by decide)).ne', fixedPoint_eq_ofParts _ _ hpos]

/-! ## Client ids -/

/-- `EncodeClientId`. -/
def encodeClientId (pre : List Char) (id : UInt64) : List Char := pre ++ '-' :: toStringU64 id

/-- `std::from_chars` into a `u64`: the value of the leading digits and what stands behind
them, or an error if there is no digit or the value is no `u64`.  No sign is read. -/
def fromChars (s : List Char) : Option (UInt64 × List Char) :=
  let digits := s.takeWhile Char.isDigit
  let value := Nat.ofDigitChars 10 digits 0
  if digits = [] then none
  else if 2 ^ 64 ≤ value then none
  else some (UInt64.ofNat value, s.dropWhile Char.isDigit)

/-- `DecodeClientId`. -/
def decodeClientId (pre clientOrderId : List Char) : Option UInt64 :=
  let want := pre.length + 1
  if clientOrderId.length ≤ want then none
  else if clientOrderId.take pre.length ≠ pre then none
  else if clientOrderId[pre.length]? ≠ some '-' then none
  else
    match fromChars (clientOrderId.drop want) with
    | some (value, []) => some value
    | _ => none

/-- A text that stands for a `u64`: digits, at least one, whose value does not overflow. -/
structure Spells (digits : List Char) (n : UInt64) : Prop where
  nonempty : digits ≠ []
  all_digits : ∀ c ∈ digits, c.isDigit = true
  value : Nat.ofDigitChars 10 digits 0 = n.toNat

theorem spells_toStringU64 (n : UInt64) : Spells (toStringU64 n) n where
  nonempty := Nat.toDigits_ne_nil
  all_digits := fun _ hc => Nat.isDigit_of_mem_toDigits (by decide) (by decide) hc
  value := Nat.ofDigitChars_ten_toDigits

theorem Spells.dash_not_mem {digits : List Char} {n : UInt64} (h : Spells digits n) :
    '-' ∉ digits := fun hdash => absurd (h.all_digits '-' hdash) (by decide)

theorem Spells.unique {digits : List Char} {m n : UInt64} (hm : Spells digits m)
    (hn : Spells digits n) : m = n :=
  UInt64.toNat_inj.mp (hm.value.symm.trans hn.value)

/-- What `from_chars` reads to the end. -/
theorem fromChars_eq_iff {s : List Char} {n : UInt64} :
    fromChars s = some (n, []) ↔ Spells s n := by
  constructor
  · intro h
    rw [fromChars] at h
    obtain ⟨hne, h⟩ := Option.ite_none_left_eq_some.mp h
    obtain ⟨hlt, h⟩ := Option.ite_none_left_eq_some.mp h
    obtain ⟨hvalue, hrest⟩ := Prod.mk.inj (Option.some.inj h)
    have hall : ∀ c ∈ s, c.isDigit = true := List.dropWhile_eq_nil_iff.mp hrest
    have hdigits : s.takeWhile Char.isDigit = s := List.takeWhile_eq_self_iff.mpr hall
    rw [hdigits] at hne hlt hvalue
    refine ⟨hne, hall, ?_⟩
    rw [← hvalue, UInt64.toNat_ofNat', Nat.mod_eq_of_lt (Nat.not_le.mp hlt)]
  · rintro ⟨hne, hall, hvalue⟩
    have hdigits : s.takeWhile Char.isDigit = s := List.takeWhile_eq_self_iff.mpr hall
    have hlt := n.toNat_lt
    rw [fromChars, hdigits, if_neg hne, if_neg (by omega), hvalue, UInt64.ofNat_toNat,
      List.dropWhile_eq_nil_iff.mpr hall]

/-- **What `DecodeClientId` accepts.** -/
theorem decodeClientId_eq_some_iff {pre s : List Char} {n : UInt64} :
    decodeClientId pre s = some n ↔ ∃ digits, s = pre ++ '-' :: digits ∧ Spells digits n := by
  constructor
  · intro h
    rw [decodeClientId] at h
    obtain ⟨hlen, h⟩ := Option.ite_none_left_eq_some.mp h
    obtain ⟨htake, h⟩ := Option.ite_none_left_eq_some.mp h
    obtain ⟨hdash, h⟩ := Option.ite_none_left_eq_some.mp h
    rw [not_not] at htake hdash
    obtain ⟨hlt, hget⟩ := List.getElem?_eq_some_iff.mp hdash
    refine ⟨s.drop (pre.length + 1), ?_, ?_⟩
    · have hsplit := List.take_append_drop pre.length s
      rw [htake] at hsplit
      rw [← hget, List.getElem_cons_drop, hsplit]
    · split at h
      · next value hread =>
        obtain rfl := Option.some.inj h
        exact fromChars_eq_iff.mp hread
      · cases h
  · rintro ⟨digits, rfl, hspells⟩
    have hlen : ¬ (pre ++ '-' :: digits).length ≤ pre.length + 1 := by
      have := List.length_pos_iff.mpr hspells.nonempty
      rw [List.length_append, List.length_cons]
      omega
    have htake : (pre ++ '-' :: digits).take pre.length = pre := List.take_left
    have hdrop : (pre ++ '-' :: digits).drop (pre.length + 1) = digits := by simp
    rw [decodeClientId, if_neg hlen, if_neg (not_not.mpr htake), if_neg (by simp), hdrop,
      fromChars_eq_iff.mpr hspells]

/-- **The client-id codec is unambiguous.**  Prefixes may hold dashes and digits: an id is
only read back under the prefix it was written with, and as itself.  What is read at all is
the prefix, a dash and the digits of the number. -/
theorem client_ids_unambiguous :
    (∀ (p q : List Char) (id n : UInt64),
      decodeClientId q (encodeClientId p id) = some n ↔ q = p ∧ n = id) ∧
    (∀ (q s : List Char) (n : UInt64),
      decodeClientId q s = some n ↔ ∃ digits, s = q ++ '-' :: digits ∧ Spells digits n) := by
  refine ⟨fun p q id n => ?_, fun q s n => decodeClientId_eq_some_iff⟩
  rw [decodeClientId_eq_some_iff]
  constructor
  · rintro ⟨digits, hsplit, hspells⟩
    -- the dash in front of the digits is the last one on both sides
    have hown := spells_toStringU64 id
    obtain ⟨hpre, hdigits⟩ := eq_of_last hown.dash_not_mem hspells.dash_not_mem hsplit
    exact ⟨hpre.symm, hspells.unique (hdigits ▸ hown)⟩
  · rintro ⟨rfl, rfl⟩
    exact ⟨toStringU64 n, rfl, spells_toStringU64 n⟩

end Asmm
