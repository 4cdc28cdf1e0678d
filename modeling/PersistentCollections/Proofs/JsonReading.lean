import Mathlib.Algebra.Group.Int.Defs
import Mathlib.Algebra.Group.Nat.Defs
import Mathlib.Data.List.TakeDrop
import PersistentCollections.Json.Key

/-! What readers take off the front of a text: an integer, a string and a key as they are
written. An integer ends where nothing follows that could be a part of a number. A string or a
key ends with its quotation mark, so anything may follow it. -/

namespace PersistentCollections

theorem FixedInt.ofInt?_value {f : IntFormat} (n : FixedInt f) : ofInt? n.value = some n :=
  dif_pos ⟨n.least_le, n.lt_bound⟩

namespace Json

namespace Reader

variable {α β : Type}

theorem bind_apply (r : Reader α) (f : α → Reader β) (text : List Char) :
    (r >>= f) text = match r text with
      | .ok (a, rest) => f a rest
      | .error e => .error e := by
  change (r text >>= fun x => f x.1 x.2) = _
  rcases r text with _ | ⟨a, rest⟩ <;> rfl

theorem bind_of_ok {r : Reader α} {text rest : List Char} {a : α} (h : r text = .ok (a, rest))
    (f : α → Reader β) : (r >>= f) text = f a rest := by
  rw [bind_apply, h]

@[simp] theorem peek_bind (f : Option Char → Reader β) (text : List Char) :
    (peek >>= f) text = f text.head? text :=
  rfl

@[simp] theorem skip_bind (f : Unit → Reader β) (c : Char) (text : List Char) :
    (skip >>= f) (c :: text) = f () text :=
  rfl

/-- A reader that takes this text, whatever follows. -/
def Takes (r : Reader α) (text : List Char) (a : α) : Prop :=
  ∀ rest, r (text ++ rest) = .ok (a, rest)

end Reader

/-! ### Digits -/

theorem head_toDigits {n : Nat} (pos : 0 < n) : (Nat.toDigits 10 n).head? ≠ some '0' := by
  induction n using Nat.strongRecOn with
  | ind n ih =>
    by_cases small : n < 10
    · rw [Nat.toDigits_of_lt_base small]
      intro head
      have char : Nat.digitChar n = '0' := Option.some.inj head
      have value := congrArg Char.toNat char
      rw [Nat.toNat_digitChar_of_lt_ten small] at value
      have zero : '0'.toNat = 48 := rfl
      omega
    · -- The first digit is that of `n / 10`.
      have split : Nat.toDigits 10 n = Nat.toDigits 10 (n / 10) ++ Nat.toDigits 10 (n % 10) := by
        rw [Nat.toDigits_append_toDigits (by decide) (by omega) (by omega), Nat.div_add_mod]
      have first := ih (n / 10) (by omega) (by omega)
      obtain ⟨c, cs, front⟩ := List.exists_cons_of_ne_nil
        (Nat.toDigits_ne_nil (b := 10) (n := n / 10))
      rw [front] at first
      rwa [split, front]

theorem natural_toDigits (n : Nat) : natural (Nat.toDigits 10 n) = n :=
  Nat.ofDigitChars_toDigits (by decide) (by decide)

theorem isDigit_of_mem_toDigits {n : Nat} {c : Char} (member : c ∈ Nat.toDigits 10 n) :
    isDigit c = true :=
  Nat.isDigit_of_mem_toDigits (by decide) (by decide) member

/-- Behind this there is neither more of an integer nor a fraction or an exponent. -/
def EndsNumber (rest : List Char) : Prop :=
  ∀ c ∈ rest.head?, isDigit c = false ∧ c ≠ '.' ∧ isExponentMark c = false

theorem takeWhile_digits {ds rest : List Char} (all : ∀ c ∈ ds, isDigit c = true)
    (ends : EndsNumber rest) : Reader.takeWhile isDigit (ds ++ rest) = .ok (ds, rest) := by
  have none : rest.takeWhile isDigit = [] ∧ rest.dropWhile isDigit = rest := by
    cases rest with
    | nil => exact ⟨rfl, rfl⟩
    | cons c rest => simp [(ends c rfl).1]
  rw [Reader.takeWhile, List.span_eq_takeWhile_dropWhile, List.takeWhile_append_of_pos all,
    List.dropWhile_append_of_pos all, none.1, none.2, List.append_nil]

theorem digits_toDigits (n : Nat) {rest : List Char} (ends : EndsNumber rest) :
    digits (Nat.toDigits 10 n ++ rest) = .ok (Nat.toDigits 10 n, rest) := by
  have taken := takeWhile_digits (fun _ => isDigit_of_mem_toDigits (n := n)) ends
  rw [digits, Reader.bind_of_ok taken]
  cases written : Nat.toDigits 10 n with
  | nil => exact absurd written Nat.toDigits_ne_nil
  | cons c cs => rfl

theorem leading_toDigits (n : Nat) :
    ¬((Nat.toDigits 10 n).head? = some '0' ∧ 1 < (Nat.toDigits 10 n).length) := by
  rintro ⟨head, long⟩
  rcases Nat.eq_zero_or_pos n with rfl | pos
  · exact absurd long (by decide)
  · exact head_toDigits pos head

theorem unsigned_toDigits (negative : Bool) {n : Nat} (small : n < 10 ^ 20)
    (word : fits negative n = true) {rest : List Char} (ends : EndsNumber rest) :
    unsigned negative (Nat.toDigits 10 n ++ rest) =
      .ok (.whole (if negative then -n else n), rest) := by
  have length : (Nat.toDigits 10 n).length ≤ 20 :=
    (Nat.length_toDigits_le_iff (by decide) (by decide)).2 small
  have plain : rest.head?.any (fun c => c == '.' || isExponentMark c) = false := by
    cases rest with
    | nil => rfl
    | cons c rest => simp [(ends c rfl).2]
  rw [unsigned, Reader.bind_of_ok (digits_toDigits n ends)]
  simp [leading_toDigits, plain, List.take_of_length_le length, natural_toDigits, length, word]
  rfl

/-! ### Integers -/

theorem toList_toString (n : Int) : (toString n).toList =
    if 0 ≤ n then Nat.toDigits 10 n.toNat else '-' :: Nat.toDigits 10 (-n).toNat := by
  rw [Int.toString_eq_repr, Int.repr_eq_if]
  split
  · rw [Nat.toList_repr]
  · rw [String.toList_append, Nat.toList_repr]
    rfl

theorem exists_cons_toString (n : Int) : ∃ c text, (toString n).toList = c :: text ∧
    (c == '-' || isDigit c) = true ∧ (c == '-') = decide (n < 0) := by
  rw [toList_toString]
  by_cases negative : n < 0
  · rw [if_neg (Int.not_le.2 negative)]
    exact ⟨'-', _, rfl, rfl, by simpa using negative⟩
  · obtain ⟨c, text, written⟩ := List.exists_cons_of_ne_nil
      (Nat.toDigits_ne_nil (b := 10) (n := n.toNat))
    have digit : isDigit c = true := isDigit_of_mem_toDigits (written ▸ List.mem_cons_self)
    have sign : c ≠ '-' := by
      rintro rfl
      exact absurd digit (by decide)
    rw [if_pos (Int.not_lt.1 negative)]
    exact ⟨c, text, written, by simp [digit], by simp [sign, negative]⟩

theorem exists_head_toString (n : Int) :
    ∃ c, (∀ rest, ((toString n).toList ++ rest).head? = some c) ∧
      (c == '-' || isDigit c) = true ∧ (c == '-') = decide (n < 0) := by
  obtain ⟨c, text, written, number, sign⟩ := exists_cons_toString n
  refine ⟨c, fun rest => ?_, number, sign⟩
  rw [written]
  rfl

theorem anyNumber_toString {n : Int} (least : -2 ^ 63 ≤ n) (greatest : n < 2 ^ 64)
    {rest : List Char} (ends : EndsNumber rest) :
    anyNumber ((toString n).toList ++ rest) = .ok (.whole n, rest) := by
  obtain ⟨c, first, _, sign⟩ := exists_head_toString n
  rw [anyNumber, Reader.peek_bind, first]
  by_cases negative : n < 0
  · have read := unsigned_toDigits true (n := (-n).toNat) (by omega) (by simp [fits]; omega) ends
    have value : -((-n).toNat : Int) = n := by omega
    rw [if_pos rfl, value] at read
    rw [toList_toString, if_neg (Int.not_le.2 negative)]
    simpa [sign, negative] using read
  · have read := unsigned_toDigits false (n := n.toNat) (by omega) (by simp [fits]; omega) ends
    have value : (n.toNat : Int) = n := by omega
    rw [if_neg Bool.false_ne_true, value] at read
    rw [toList_toString, if_pos (Int.not_lt.1 negative)]
    simpa [sign, negative] using read

theorem start_cons {c : Char} (visible : isSpace c = false) (text : List Char) :
    start (c :: text) = .ok (c, c :: text) := by
  simp [start, Reader.peekToken, Reader.bind_apply, visible]
  rfl

theorem opens_of_number {c : Char} (number : (c == '-' || isDigit c) = true) :
    isSpace c = false ∧ c ≠ ']' := by
  constructor
  · refine Bool.eq_false_iff.2 fun space => ?_
    simp only [isSpace, Bool.or_eq_true, beq_iff_eq] at space
    rcases space with ((rfl | rfl) | rfl) | rfl <;> exact absurd number (by decide)
  · rintro rfl
    exact absurd number (by decide)

variable {f : IntFormat}

theorem narrow_bounds (narrow : f.bits ≤ 64) (n : FixedInt f) :
    -2 ^ 63 ≤ n.value ∧ n.value < 2 ^ 64 := by
  have power : 2 ^ f.bits ≤ 2 ^ 64 := Nat.pow_le_pow_right (by decide) narrow
  have span : f.span = (2 ^ f.bits : Nat) := by rw [IntFormat.span, Nat.one_shiftLeft]
  have least := n.least_le
  have bound := n.lt_bound
  rw [IntFormat.bound, IntFormat.least, span] at bound
  rw [IntFormat.least, span] at least
  generalize 2 ^ f.bits = count at *
  cases signed : f.signed with
  | true =>
    rw [signed, if_pos rfl] at least bound
    omega
  | false =>
    rw [signed, if_neg Bool.false_ne_true] at least bound
    omega

theorem fixedInt_toString (narrow : f.bits ≤ 64) (n : FixedInt f) {rest : List Char}
    (ends : EndsNumber rest) :
    fixedInt ((toString n.value).toList ++ rest) = .ok (n, rest) := by
  obtain ⟨least, greatest⟩ := narrow_bounds narrow n
  obtain ⟨c, text, written, number, _⟩ := exists_cons_toString n.value
  have read := anyNumber_toString least greatest ends
  have whole : numberAs f.name ((toString n.value).toList ++ rest) =
      .ok (.whole n.value, rest) := by
    rw [written, List.cons_append] at read ⊢
    rw [numberAs, Reader.bind_of_ok (start_cons (opens_of_number number).1 _), if_pos number, read]
  rw [fixedInt, Reader.bind_of_ok whole]
  simp only [FixedInt.ofInt?_value]
  rfl

theorem integer_toString (n : Int) {rest : List Char} (ends : EndsNumber rest) :
    integer ((toString n).toList ++ rest) = .ok (n, rest) := by
  obtain ⟨c, first, _, sign⟩ := exists_head_toString n
  have taken (m : Nat) := takeWhile_digits (fun _ => isDigit_of_mem_toDigits (n := m)) ends
  rw [integer, Reader.peek_bind, first, toList_toString]
  by_cases negative : n < 0
  · have value : -max (-n) 0 = n := by omega
    rw [if_neg (Int.not_le.2 negative)]
    simp [sign, negative, value, Reader.bind_of_ok (taken _), leading_toDigits, natural_toDigits]
    rfl
  · have value : max n 0 = n := by omega
    rw [if_pos (Int.not_lt.1 negative)]
    simp [sign, negative, value, Reader.bind_of_ok (taken _), leading_toDigits, natural_toDigits]
    rfl

/-! ### Strings -/

theorem stringFrom_escape {text rest : List Char} {c : Char} (h : escape text = .ok (c, rest))
    (seen : List Char) : stringFrom seen ('\\' :: text) = stringFrom (c :: seen) rest := by
  rw [stringFrom]
  split <;> simp_all

theorem digitChar_hex : ∀ n < 16, hexDigit? (Nat.digitChar n) = some n ∧
    (Nat.digitChar n).utf8Size = 1 := by
  decide

theorem hexCode_digitChar {a b : Nat} (ha : a < 16) (hb : b < 16) (text : List Char) :
    hexCode ('0' :: '0' :: Nat.digitChar a :: Nat.digitChar b :: text) =
      .ok (16 * a + b, text) := by
  have zero : hexDigit? '0' = some 0 ∧ '0'.utf8Size = 1 := by decide
  obtain ⟨valueA, sizeA⟩ := digitChar_hex a ha
  obtain ⟨valueB, sizeB⟩ := digitChar_hex b hb
  simp [hexCode, hexValue?, zero, valueA, sizeA, valueB, sizeB]

theorem codeEscape_control {c : Char} (control : c.toNat < 0x20) (text : List Char) :
    codeEscape ('0' :: '0' :: Nat.digitChar (c.toNat / 16) :: Nat.digitChar (c.toNat % 16)
      :: text) = .ok (c, text) := by
  have code := hexCode_digitChar (a := c.toNat / 16) (b := c.toNat % 16) (by omega) (by omega) text
  rw [Nat.div_add_mod] at code
  have plain : isTrailing c.toNat = false ∧ isLeading c.toNat = false := by
    simp [isTrailing, isLeading]
    omega
  rw [codeEscape, Reader.bind_of_ok code]
  simp [plain]
  rfl

theorem stringFrom_encodeChar (c : Char) (seen text : List Char) :
    stringFrom seen (encodeChar c ++ text) = stringFrom (c :: seen) text := by
  unfold encodeChar
  split
  -- No letter stands for the character, so it is written by its code or as it is.
  case h_8 quote slash _ _ _ _ _ =>
    split
    · rename_i control
      have read : escape ('u' :: '0' :: '0' :: Nat.digitChar (c.toNat / 16) ::
          Nat.digitChar (c.toNat % 16) :: text) = .ok (c, text) := codeEscape_control control text
      exact stringFrom_escape read seen
    · rename_i visible
      rw [List.singleton_append, stringFrom]
      · rw [if_neg visible]
      · exact quote
      · exact slash
  all_goals exact stringFrom_escape rfl seen

theorem stringFrom_flatMap (cs seen rest : List Char) :
    stringFrom seen (cs.flatMap encodeChar ++ '"' :: rest) =
      .ok (String.ofList (seen.reverse ++ cs), rest) := by
  induction cs generalizing seen with
  | nil => simp [stringFrom]
  | cons c cs ih =>
    rw [List.flatMap_cons, List.append_assoc, stringFrom_encodeChar, ih]
    simp

theorem toList_encode (s : String) :
    (encode s).toList = '"' :: (s.toList.flatMap encodeChar ++ ['"']) :=
  String.toList_ofList

theorem string_takes (s : String) :
    string.Takes (s.toList.flatMap encodeChar ++ ['"']) s := by
  intro rest
  rw [List.append_assoc, string]
  refine (stringFrom_flatMap s.toList [] rest).trans ?_
  rw [List.reverse_nil, List.nil_append, String.ofList_toList]

/-! ### Keys -/

theorem stringKey_takes (s : String) : stringKey.Takes (encode s).toList s := by
  intro rest
  rw [toList_encode, List.cons_append, stringKey, Reader.skip_bind]
  exact string_takes s rest

theorem integerKey_takes {α : Type} {read : Reader α} {n : Int} {a : α}
    (h : ∀ rest, EndsNumber rest → read ((toString n).toList ++ rest) = .ok (a, rest)) :
    (integerKey read).Takes ("\"" ++ toString n ++ "\"").toList a := by
  intro rest
  obtain ⟨c, first, number, _⟩ := exists_head_toString n
  have marked : ("\"" ++ toString n ++ "\"").toList ++ rest =
      '"' :: ((toString n).toList ++ '"' :: rest) := by
    simp
  have ends : EndsNumber ('"' :: rest) := by
    rintro _ ⟨⟩
    decide
  rw [marked, integerKey, Reader.skip_bind, Reader.peek_bind, first]
  rw [Option.any_some, if_pos number, Reader.bind_of_ok (h _ ends)]
  rfl

theorem wideInteger_toString (n : FixedInt f) {rest : List Char} (ends : EndsNumber rest) :
    wideInteger f ((toString n.value).toList ++ rest) = .ok (n, rest) := by
  obtain ⟨c, first, _, sign⟩ := exists_head_toString n.value
  have signless : (!f.signed && some c == some '-') = false := by
    have least := n.least_le
    rw [IntFormat.least] at least
    cases signed : f.signed with
    | true => rfl
    | false =>
      have positive : ¬n.value < 0 := by simpa [signed] using least
      simpa [sign] using positive
  rw [wideInteger, Reader.peek_bind, first, signless]
  change (integer >>= _) _ = _
  rw [Reader.bind_of_ok (integer_toString n.value ends), FixedInt.ofInt?_value]
  rfl

/-- What a key starts with. -/
def Quoted (text : List Char) : Prop := ∃ rest, text = '"' :: rest

theorem quoted_encode (s : String) : Quoted (encode s).toList := ⟨_, toList_encode s⟩

section

variable {κ : Type} [JsonKey κ] {k l b c : κ} {text : String}

structure KeyYields (k : κ) (text : String) (b : κ) : Prop where
  written : JsonKey.write? k = some text
  quoted : Quoted text.toList
  taken : (JsonKey.read : Reader κ).Takes text.toList b

theorem KeyYields.some (h : KeyYields k text b) : KeyYields (some k) text (some b) where
  written := h.written
  quoted := h.quoted
  taken rest := by
    change ((JsonKey.read : Reader κ) >>= fun a => pure (Option.some a)) _ = _
    rw [Reader.bind_of_ok (h.taken rest)]
    rfl

variable [BEq κ]

/-- What is read where the key stands equals the key, and is read as itself. -/
structure KeyReadsAs (k : κ) (text : String) (b : κ) : Prop extends KeyYields k text b where
  equal : (b == k) = true
  settled : ∃ text, KeyYields b text b

theorem KeyYields.readsAs [ReflBEq κ] (h : KeyYields k text k) : KeyReadsAs k text k :=
  ⟨h, BEq.rfl, text, h⟩

theorem KeyReadsAs.equal_of_text [EquivBEq κ] (hk : KeyReadsAs k text b)
    (hl : KeyReadsAs l text c) : (k == l) = true := by
  have read := (hk.taken []).symm.trans (hl.taken [])
  have same : b = c := congrArg Prod.fst (Except.ok.inj read)
  exact BEq.trans (BEq.symm hk.equal) (same ▸ hl.equal)

theorem KeyReadsAs.some (h : KeyReadsAs k text b) : KeyReadsAs (some k) text (some b) := by
  obtain ⟨settledText, settled⟩ := h.settled
  exact ⟨h.toKeyYields.some, h.equal, settledText, settled.some⟩

end

theorem keyReadsAs_fixedInt (n : FixedInt f) :
    KeyReadsAs n ("\"" ++ toString n.value ++ "\"") n := by
  refine KeyYields.readsAs ⟨rfl, ⟨(toString n.value ++ "\"").toList, by simp⟩, ?_⟩
  refine integerKey_takes fun rest ends => ?_
  split
  · rename_i narrow
    exact fixedInt_toString narrow n ends
  · exact wideInteger_toString n ends

theorem keyReadsAs_string (s : String) : KeyReadsAs s (encode s) s :=
  KeyYields.readsAs ⟨rfl, quoted_encode _, stringKey_takes s⟩

theorem keyReadsAs_char (c : Char) : KeyReadsAs c (encode (String.singleton c)) c := by
  refine KeyYields.readsAs ⟨rfl, quoted_encode _, fun rest => ?_⟩
  change (stringKey >>= _) _ = _
  rw [Reader.bind_of_ok (stringKey_takes _ rest), String.toList_singleton]
  rfl

theorem keyReadsAs_bool (b : Bool) :
    KeyReadsAs b (if b then "\"true\"" else "\"false\"") b := by
  have letters : "\"true\"".toList = ['"', 't', 'r', 'u', 'e', '"'] ∧
      "\"false\"".toList = ['"', 'f', 'a', 'l', 's', 'e', '"'] := by decide
  refine KeyYields.readsAs ⟨rfl, ?_, fun rest => ?_⟩
  · cases b <;> exact ⟨_, rfl⟩
  · cases b
    · rw [if_neg Bool.false_ne_true, letters.2]
      rfl
    · rw [if_pos rfl, letters.1]
      rfl

end Json

end PersistentCollections
