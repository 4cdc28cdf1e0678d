import PersistentCollections.Proofs.JsonReading
import PersistentCollections.Proofs.Reachable
import PersistentCollections.Proofs.SequenceFeeds

/-! Values that are read where they were written: inside of a sequence or an object, behind other
values and in front of others. The two loops that read items between commas do the same turns, so
one induction on the items serves both. Sequences of values that are read back are read back
themselves, and so on for sequences of sequences. -/

namespace PersistentCollections.Json

variable {α β κ ν : Type}

/-- What may stand behind a value: nothing more, or what ends it in a sequence or an object. -/
def Closes (rest : List Char) : Prop := ∀ c ∈ rest.head?, c = ',' ∨ c = ']' ∨ c = '\x7d'

theorem Closes.endsNumber {rest : List Char} (h : Closes rest) : EndsNumber rest := by
  intro c first
  rcases h c first with rfl | rfl | rfl <;> decide

def Opens (text : List Char) : Prop := ∃ c rest, text = c :: rest ∧ isSpace c = false ∧ c ≠ ']'

namespace Decoder

variable {d : Decoder α} {text rest : List Char} {a : α}

/-- A decoder that takes this text in front of whatever may stand behind a value. -/
def Takes (d : Decoder α) (text : List Char) (a : α) : Prop :=
  ∀ rest events, Closes rest → ∃ later, d ⟨text ++ rest, events⟩ = (.ok a, ⟨rest, later⟩)

theorem bind_of_ok {s t : Progress} (h : d s = (.ok a, t)) (f : α → Decoder β) :
    (d >>= f) s = f a t := by
  rw [bind_apply, h]

theorem lift_bind_of_ok {r : Reader α} {events : List Event} (h : r text = .ok (a, rest))
    (f : α → Decoder β) :
    ((liftM r : Decoder α) >>= f) ⟨text, events⟩ = f a ⟨rest, events⟩ := by
  refine bind_of_ok ?_ f
  change ofReader r _ = _
  rw [ofReader, h]

theorem peekToken_bind {c : Char} (visible : isSpace c = false) (f : Option Char → Decoder β)
    (text : List Char) (events : List Event) :
    ((liftM Reader.peekToken : Decoder (Option Char)) >>= f) ⟨c :: text, events⟩ =
      f (some c) ⟨c :: text, events⟩ := by
  refine lift_bind_of_ok ?_ f
  rw [Reader.peekToken, List.dropWhile_cons_of_neg (by simp [visible])]
  rfl

theorem skip_bind (f : Unit → Decoder β) (c : Char) (text : List Char) (events : List Event) :
    ((liftM Reader.skip : Decoder Unit) >>= f) ⟨c :: text, events⟩ = f () ⟨text, events⟩ :=
  lift_bind_of_ok rfl f

theorem start_bind {c : Char} (visible : isSpace c = false) (f : Char → Decoder β)
    (text : List Char) (events : List Event) :
    ((liftM start : Decoder Char) >>= f) ⟨c :: text, events⟩ = f c ⟨c :: text, events⟩ :=
  lift_bind_of_ok (start_cons visible text) f

theorem left_bind (f : Nat → Decoder β) (text : List Char) (events : List Event) :
    (left >>= f) ⟨text, events⟩ = f text.length ⟨text, events⟩ :=
  bind_of_ok rfl f

theorem takes_ofReader {r : Reader α} (h : ∀ rest, Closes rest → r (text ++ rest) = .ok (a, rest)) :
    Takes (ofReader r) text a := by
  intro rest events closed
  refine ⟨events, ?_⟩
  rw [ofReader, h rest closed]

theorem Takes.record (h : d.Takes text a) (build : α → Logged β) :
    Takes (do Decoder.record (build (← d))) text (build a).value := by
  intro rest events closed
  obtain ⟨later, taken⟩ := h rest events closed
  exact ⟨_, bind_of_ok taken _⟩

theorem Takes.run {text : String} (h : d.Takes text.toList a) : (d.run text).value = .ok a := by
  obtain ⟨later, taken⟩ := h [] [] (by rintro _ ⟨⟩)
  rw [List.append_nil] at taken
  rw [Decoder.run, taken]
  rfl

end Decoder

open Decoder

/-! ### Items between commas -/

theorem intercalate_cons (text : List Char) (texts : List (List Char)) :
    [','].intercalate (text :: texts) = text ++ texts.flatMap (',' :: ·) := by
  induction texts generalizing text with
  | nil => rw [List.intercalate_singleton, List.flatMap_nil, List.append_nil]
  | cons next texts ih =>
    rw [List.intercalate_cons_cons, ih, List.flatMap_cons, List.append_assoc,
      List.singleton_append, List.cons_append]

theorem length_le_flatMap (texts : List (List Char)) :
    texts.length ≤ (texts.flatMap (',' :: ·)).length := by
  induction texts with
  | nil => exact Nat.le_refl _
  | cons text texts ih =>
    rw [List.flatMap_cons, List.length_append, List.length_cons, List.length_cons]
    omega

theorem length_le_intercalate (texts : List (List Char)) :
    texts.length ≤ ([','].intercalate texts).length + 1 := by
  cases texts with
  | nil => exact Nat.zero_le _
  | cons text texts =>
    have rest := length_le_flatMap texts
    rw [intercalate_cons, List.length_append, List.length_cons]
    omega

/-- A loop that reads items between commas, up to a closing mark. Items start in a way that tells
them from the mark. -/
structure Loop (item : Decoder α) (starts : List Char → Prop) (mark : Char)
    (loop : Nat → List α → Decoder (List α)) : Prop where
  closes : mark = ']' ∨ mark = '\x7d'
  stop : ∀ room seen rest events,
    loop (room + 1) seen ⟨mark :: rest, events⟩ = (.ok seen.reverse, ⟨rest, events⟩)
  first : ∀ room text rest events, starts text →
    loop (room + 1) [] ⟨text ++ rest, events⟩ =
      (item >>= fun a => loop room [a]) ⟨text ++ rest, events⟩
  next : ∀ room b before text rest events, starts text →
    loop (room + 1) (b :: before) ⟨',' :: (text ++ rest), events⟩ =
      (item >>= fun a => loop room (a :: b :: before)) ⟨text ++ rest, events⟩

abbrev Taken (item : Decoder α) (starts : List Char → Prop) : List (List Char) → List α → Prop :=
  List.Forall₂ fun text a => item.Takes text a ∧ starts text

namespace Loop

variable {item : Decoder α} {starts : List Char → Prop} {mark : Char}
  {loop : Nat → List α → Decoder (List α)} {texts : List (List Char)} {items : List α}

theorem closes_flatMap (l : Loop item starts mark loop) (texts : List (List Char))
    (rest : List Char) : Closes (texts.flatMap (',' :: ·) ++ mark :: rest) := by
  intro c first
  cases texts with
  | nil =>
    obtain rfl := Option.some.inj first
    exact .inr l.closes
  | cons text texts =>
    obtain rfl := Option.some.inj first
    exact .inl rfl

theorem takes_rest (l : Loop item starts mark loop) (h : Taken item starts texts items)
    {seen : List α} (begun : seen ≠ []) {room : Nat} (enough : texts.length < room)
    (rest : List Char) (events : List Event) :
    ∃ later, loop room seen ⟨texts.flatMap (',' :: ·) ++ mark :: rest, events⟩ =
      (.ok (seen.reverse ++ items), ⟨rest, later⟩) := by
  -- On the items: each one takes a turn, so that there are turns left for the others and the mark.
  induction h generalizing seen room events with
  | nil =>
    obtain ⟨room, rfl⟩ := Nat.exists_eq_succ_of_ne_zero (Nat.ne_of_gt enough)
    refine ⟨events, ?_⟩
    rw [List.flatMap_nil, List.nil_append, List.append_nil]
    exact l.stop room seen rest events
  | @cons text a texts items first _ ih =>
    obtain ⟨room, rfl⟩ := Nat.exists_eq_succ_of_ne_zero (Nat.ne_of_gt (Nat.zero_lt_of_lt enough))
    obtain ⟨b, before, rfl⟩ := List.exists_cons_of_ne_nil begun
    obtain ⟨later, taken⟩ := first.1 _ events (l.closes_flatMap texts rest)
    obtain ⟨last, all⟩ := ih (List.cons_ne_nil a (b :: before))
      (Nat.lt_of_succ_lt_succ enough) later
    refine ⟨last, ?_⟩
    rw [List.flatMap_cons, List.cons_append, List.cons_append, List.append_assoc,
      l.next room b before text _ events first.2, bind_of_ok taken, all, List.reverse_cons,
      List.append_assoc, List.singleton_append]

theorem takes (l : Loop item starts mark loop) (h : Taken item starts texts items) {room : Nat}
    (enough : texts.length < room) (rest : List Char) (events : List Event) :
    ∃ later, loop room [] ⟨[','].intercalate texts ++ mark :: rest, events⟩ =
      (.ok items, ⟨rest, later⟩) := by
  obtain ⟨room, rfl⟩ := Nat.exists_eq_succ_of_ne_zero (Nat.ne_of_gt (Nat.zero_lt_of_lt enough))
  cases h with
  | nil => exact ⟨events, l.stop room [] rest events⟩
  | @cons text a texts items first others =>
    obtain ⟨later, taken⟩ := first.1 _ events (l.closes_flatMap texts rest)
    obtain ⟨last, all⟩ := l.takes_rest others (List.cons_ne_nil a [])
      (Nat.lt_of_succ_lt_succ enough) rest later
    refine ⟨last, ?_⟩
    rw [intercalate_cons, List.append_assoc, l.first room text _ events first.2, bind_of_ok taken,
      all]
    rfl

end Loop

/-! ### Sequences -/

theorem elements_loop (item : Decoder α) : Loop item Opens ']' (elements item) where
  closes := .inl rfl
  stop room seen rest events := by
    rw [elements, peekToken_bind rfl]
    rfl
  first room text rest events opens := by
    obtain ⟨c, front, rfl, visible, inside⟩ := opens
    rw [elements, List.cons_append, peekToken_bind visible]
    simp only
  next room b before text rest events opens := by
    obtain ⟨c, front, rfl, visible, inside⟩ := opens
    rw [elements, peekToken_bind rfl]
    simp only [skip_bind]
    rw [List.cons_append, peekToken_bind visible]
    simp only

theorem toList_writeArray (texts : List String) :
    (writeArray texts).toList = '[' :: ([','].intercalate (texts.map String.toList) ++ [']']) := by
  simp [writeArray]

theorem array_takes {item : Decoder α} {texts : List String} {items : List α}
    (h : Taken item Opens (texts.map String.toList) items) :
    (array item).Takes (writeArray texts).toList items := by
  intro rest events _
  rw [toList_writeArray]
  generalize texts.map String.toList = texts at h
  have short := length_le_intercalate texts
  rw [List.cons_append, List.append_assoc, List.singleton_append, array, start_bind rfl,
    if_pos BEq.rfl, skip_bind, left_bind]
  apply (elements_loop item).takes h
  rw [List.length_append, List.length_cons]
  omega

/-! ### Objects -/

theorem member_takes {key : Reader κ} {value : Decoder ν} {k : κ} {v : ν}
    {keyText text : List Char} (hk : key.Takes keyText k) (hv : value.Takes text v) :
    (member key value).Takes (keyText ++ ':' :: text) (k, v) := by
  intro rest events closed
  obtain ⟨later, taken⟩ := hv rest events closed
  refine ⟨later, ?_⟩
  rw [List.append_assoc, member, lift_bind_of_ok (hk _), List.cons_append, peekToken_bind rfl]
  simp only [skip_bind]
  exact bind_of_ok taken _

theorem members_loop (key : Reader κ) (value : Decoder ν) :
    Loop (member key value) Quoted '\x7d' (members key value) where
  closes := .inr rfl
  stop room seen rest events := by
    rw [members, peekToken_bind rfl]
    rfl
  first room text rest events quoted := by
    obtain ⟨front, rfl⟩ := quoted
    rw [members, List.cons_append, peekToken_bind rfl]
    simp only
  next room b before text rest events quoted := by
    obtain ⟨front, rfl⟩ := quoted
    rw [members, peekToken_bind rfl]
    simp only [skip_bind]
    rw [List.cons_append, peekToken_bind rfl]
    simp only

def memberText (text : String × String) : List Char := text.1.toList ++ ':' :: text.2.toList

theorem toList_writeObject (texts : List (String × String)) : (writeObject texts).toList =
    '\x7b' :: ([','].intercalate (texts.map memberText) ++ ['\x7d']) := by
  have joined : (String.toList ∘ fun text : String × String => text.1 ++ ":" ++ text.2) =
      memberText := by
    funext text
    simp [memberText]
  rw [writeObject, String.toList_append, String.toList_append, String.toList_intercalate,
    List.map_map, List.append_assoc, ← joined]
  rfl

theorem object_takes {key : Reader κ} {value : Decoder ν} {texts : List (String × String)}
    {items : List (κ × ν)} (h : Taken (member key value) Quoted (texts.map memberText) items) :
    (object key value).Takes (writeObject texts).toList items := by
  intro rest events _
  rw [toList_writeObject]
  generalize texts.map memberText = texts at h
  have short := length_le_intercalate texts
  rw [List.cons_append, List.append_assoc, List.singleton_append, object, start_bind rfl,
    if_pos BEq.rfl, skip_bind, left_bind]
  apply (members_loop key value).takes h
  rw [List.length_append, List.length_cons]
  omega

/-! ### Values -/

theorem exists_forall₂ {R : α → β → Prop} {items : List α} (h : ∀ a ∈ items, ∃ b, R a b) :
    ∃ others, List.Forall₂ R items others := by
  induction items with
  | nil => exact ⟨[], .nil⟩
  | cons a items ih =>
    obtain ⟨⟨b, first⟩, rest⟩ := List.forall_mem_cons.1 h
    obtain ⟨others, all⟩ := ih rest
    exact ⟨b :: others, .cons first all⟩

/-- Where the first value was written, the second one is read. -/
structure Yields [JsonValue α] (a b : α) : Prop where
  taken : (JsonValue.read : Decoder α).Takes (JsonValue.write a).toList b
  opens : Opens (JsonValue.write a).toList

/-- What is read where a value was written equals the value and is read as itself. -/
structure ReadsAs [BEq α] [JsonValue α] (a b : α) : Prop extends Yields a b where
  equal : (a == b) = true ∧ (b == a) = true
  settled : Yields b b

/-- Something is read where the value was written that equals it and is read as itself. -/
def ReadsBack [BEq α] [JsonValue α] (a : α) : Prop := ∃ b, ReadsAs a b

theorem array_yields [JsonValue α] {items others : List α} (h : List.Forall₂ Yields items others) :
    (array JsonValue.read).Takes (writeArray (items.map JsonValue.write)).toList others := by
  apply array_takes
  rw [List.map_map, Taken, List.forall₂_map_left_iff]
  exact h.imp fun _ _ yields => ⟨yields.taken, yields.opens⟩

theorem opens_writeArray (texts : List String) : Opens (writeArray texts).toList := by
  rw [toList_writeArray]
  exact ⟨_, _, rfl, rfl, by decide⟩

section

variable [JsonValue α] {items others : List α}

theorem Yields.list (h : List.Forall₂ Yields items others) : Yields items others :=
  ⟨array_yields h, opens_writeArray _⟩

theorem Yields.vector {v : TrieVector α} (h : List.Forall₂ Yields v.toList others) :
    Yields v (TrieVector.ofList others).value :=
  ⟨(array_yields h).record TrieVector.ofList, opens_writeArray _⟩

theorem Yields.slice {s : Slice α} (h : List.Forall₂ Yields s.toList others) :
    Yields s (Slice.ofList others).value :=
  ⟨(array_yields h).record Slice.ofList, opens_writeArray _⟩

end

section

variable [BEq α] [JsonValue α] {a b : α} {items others : List α}

theorem Yields.readsAs [ReflBEq α] (h : Yields a a) : ReadsAs a a := ⟨h, ⟨BEq.rfl, BEq.rfl⟩, h⟩

theorem ReadsAs.fromJson (h : ReadsAs a b) : (fromJson (JsonValue.write a)).value = .ok b :=
  h.taken.run

theorem yields_of_readsAs (h : List.Forall₂ ReadsAs items others) :
    List.Forall₂ Yields items others := h.imp fun _ _ reads => reads.toYields

theorem settled_of_readsAs (h : List.Forall₂ ReadsAs items others) :
    List.Forall₂ Yields others others := by
  induction h with
  | nil => exact .nil
  | cons first _ ih => exact .cons first.settled ih

theorem beq_of_readsAs (h : List.Forall₂ ReadsAs items others) :
    (items == others) = true ∧ (others == items) = true :=
  ⟨beq_iff_forall₂.2 (h.imp fun _ _ reads => reads.equal.1),
    beq_iff_forall₂.2 (h.flip.imp fun _ _ reads => reads.equal.2)⟩

theorem ReadsAs.list (h : List.Forall₂ ReadsAs items others) : ReadsAs items others :=
  ⟨.list (yields_of_readsAs h), beq_of_readsAs h, .list (settled_of_readsAs h)⟩

theorem ReadsAs.vector {v : TrieVector α} (made : v.WellFormed)
    (h : List.Forall₂ ReadsAs v.toList others) : ReadsAs v (TrieVector.ofList others).value := by
  have form := TrieVector.ofList_represents others
  have equal := beq_of_readsAs h
  have length : v.length = (TrieVector.ofList others).value.length := by
    rw [form.length, ← h.length_eq, made.length_toList]
  refine ⟨.vector (yields_of_readsAs h), ⟨?_, ?_⟩, .vector ?_⟩
  · rw [TrieVector.beq_iff, form.toList]
    exact ⟨length, equal.1⟩
  · rw [TrieVector.beq_iff, form.toList]
    exact ⟨length.symm, equal.2⟩
  · rw [form.toList]
    exact settled_of_readsAs h

theorem ReadsAs.slice {s : Slice α} (made : s.WellFormed)
    (h : List.Forall₂ ReadsAs s.toList others) : ReadsAs s (Slice.ofList others).value := by
  have form := Slice.ofVector_represents (TrieVector.ofList_represents others)
  have equal := beq_of_readsAs h
  have length : s.length = (Slice.ofList others).value.length := by
    rw [← made.length_contents, ← made.toList_eq, h.length_eq]
    exact form.length.symm
  have listed : (Slice.ofList others).value.toList = others := form.answers.toList
  refine ⟨.slice (yields_of_readsAs h), ⟨?_, ?_⟩, .slice ?_⟩
  · rw [Slice.beq_iff, listed]
    exact ⟨length, equal.1⟩
  · rw [Slice.beq_iff, listed]
    exact ⟨length.symm, equal.2⟩
  · rw [listed]
    exact settled_of_readsAs h

end

theorem readsAs_fixedInt {f : IntFormat} (narrow : f.bits ≤ 64) (n : FixedInt f) :
    ReadsAs n n := by
  obtain ⟨c, text, written, number, _⟩ := exists_cons_toString n.value
  refine Yields.readsAs ⟨?_, c, text, written, opens_of_number number⟩
  exact takes_ofReader fun _ closed => fixedInt_toString narrow n closed.endsNumber

theorem readsAs_string (s : String) : ReadsAs s s := by
  refine Yields.readsAs ⟨fun rest events _ => ⟨events, ?_⟩, ?_⟩
  · change ((liftM start : Decoder Char) >>= _) ⟨(encode s).toList ++ rest, events⟩ = _
    rw [toList_encode, List.cons_append, start_bind rfl, if_pos BEq.rfl, skip_bind]
    change ofReader string _ = _
    rw [ofReader, string_takes s rest]
  · change Opens (encode s).toList
    rw [toList_encode]
    exact ⟨_, _, rfl, rfl, by decide⟩

end PersistentCollections.Json
