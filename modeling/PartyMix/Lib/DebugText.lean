import Mathlib.Data.List.TakeWhile

/-!
# Rust's `{:?}` text

The text that `format!("{:?}", value)` writes for decimal integers, arrays and
vectors, tuple structs with one field, and structs with named fields.  Texts are
lists of characters.

A number's text has no end of its own, so texts are read in front of something that
is not a digit: `Readable debug` says that the value, and what stands behind its
text, can be read off there.  Lists, tuples and structs of readable parts are
readable.
-/

namespace PartyMix.DebugText

variable {α β : Type}

def debugNat (n : Nat) : List Char := Nat.toDigits 10 n

/-- `[a, b, c]`, for arrays and vectors alike. -/
def debugList (debug : α → List Char) (values : List α) : List Char :=
  '[' :: (List.intercalate [',', ' '] (values.map debug) ++ [']'])

/-- `Name(field)`. -/
def debugTuple (name : String) (field : List Char) : List Char :=
  name.toList ++ '(' :: (field ++ [')'])

/-- `Name \x7b a: 1, b: 2 \x7d`. -/
def debugStruct (name : String) (fields : List (String × List Char)) : List Char :=
  let entries := fields.map fun (label, text) => label.toList ++ ':' :: ' ' :: text
  name.toList ++ " \x7b ".toList ++ List.intercalate [',', ' '] entries ++ " \x7d".toList

/-- Two lower-case hexadecimal digits for every byte. -/
def debugHex (bytes : List UInt8) : List Char :=
  bytes.flatMap fun byte => [Nat.digitChar (byte.toNat / 16), Nat.digitChar (byte.toNat % 16)]

/-- `String::into_bytes`: the UTF-8 bytes of a text. -/
def intoBytes (text : List Char) : List UInt8 := text.flatMap String.utf8EncodeChar

/-! ### Texts that tell where they end -/

/-- The text does not go on with a decimal digit, so a number in front of it ends. -/
def EndsNumber (text : List Char) : Prop := ∀ c ∈ text.head?, c.isDigit = false

@[simp] theorem endsNumber_nil : EndsNumber [] := by simp [EndsNumber]

@[simp] theorem endsNumber_cons {c : Char} {text : List Char} :
    EndsNumber (c :: text) ↔ c.isDigit = false := by
  simp [EndsNumber]

/-- In front of something that ends a number, no text `text a` can be taken for
    another one. -/
def Delimited (text : α → List Char) : Prop :=
  ∀ ⦃a b s t⦄, EndsNumber s → EndsNumber t → text a ++ s = text b ++ t → text a = text b

/-- The value can be read off its text, also with more text behind it. -/
structure Readable (debug : α → List Char) : Prop where
  delimited : Delimited debug
  injective : Function.Injective debug

theorem Delimited.append_inj {text : α → List Char} (htext : Delimited text) {a b : α}
    {s t : List Char} (hs : EndsNumber s) (ht : EndsNumber t)
    (h : text a ++ s = text b ++ t) : text a = text b ∧ s = t := by
  have hsame := htext hs ht h
  rw [hsame] at h
  exact ⟨hsame, List.append_cancel_left h⟩

theorem Readable.append_inj {debug : α → List Char} (hdebug : Readable debug) {a b : α}
    {s t : List Char} (hs : EndsNumber s) (ht : EndsNumber t)
    (h : debug a ++ s = debug b ++ t) : a = b ∧ s = t := by
  obtain ⟨hsame, hrest⟩ := hdebug.delimited.append_inj hs ht h
  exact ⟨hdebug.injective hsame, hrest⟩

/-- The text of a part of the value. -/
theorem Delimited.comp {text : β → List Char} (htext : Delimited text) (part : α → β) :
    Delimited fun a => text (part a) := by
  intro a b s t hs ht h
  exact htext hs ht h

theorem Readable.comp {debug : β → List Char} (hdebug : Readable debug) {part : α → β}
    (hpart : Function.Injective part) : Readable fun a => debug (part a) :=
  ⟨hdebug.delimited.comp part, hdebug.injective.comp hpart⟩

theorem delimited_of_length {text : α → List Char}
    (hlength : ∀ a b, (text a).length = (text b).length) : Delimited text := by
  intro a b s t _ _ h
  exact List.append_inj_left h (hlength a b)

theorem Delimited.prepend {text : α → List Char} (htext : Delimited text) (label : List Char) :
    Delimited fun a => label ++ text a := by
  intro a b s t hs ht h
  rw [List.append_assoc, List.append_assoc] at h
  exact congrArg (label ++ ·) (htext hs ht (List.append_cancel_left h))

/-- A closing text behind it. -/
theorem Delimited.append {text : α → List Char} (htext : Delimited text) {close : List Char}
    (hclose : ∀ rest, EndsNumber (close ++ rest)) : Delimited fun a => text a ++ close := by
  intro a b s t _ _ h
  rw [List.append_assoc, List.append_assoc] at h
  exact congrArg (· ++ close) (htext (hclose s) (hclose t) h)

/-! ### Numbers -/

theorem isDigit_of_mem_debugNat {n : Nat} {c : Char} (h : c ∈ debugNat n) : c.isDigit = true :=
  Nat.isDigit_of_mem_toDigits (by decide) (by decide) h

/-- A number's text starts with a digit. -/
theorem debugNat_append_ne {c : Char} (hc : c.isDigit = false) (n : Nat) (s t : List Char) :
    debugNat n ++ s ≠ c :: t := by
  intro h
  cases hdigits : debugNat n with
  | nil => exact Nat.toDigits_ne_nil hdigits
  | cons digit digits =>
    have hdigit : digit.isDigit = true :=
      isDigit_of_mem_debugNat (hdigits ▸ List.mem_cons_self)
    rw [hdigits] at h
    rw [(List.cons.inj h).1, hc] at hdigit
    exact Bool.false_ne_true hdigit

theorem takeWhile_debugNat (n : Nat) {s : List Char} (hs : EndsNumber s) :
    (debugNat n ++ s).takeWhile Char.isDigit = debugNat n := by
  have hdigits : ∀ c ∈ debugNat n, c.isDigit = true := by
    intro c hc
    exact isDigit_of_mem_debugNat hc
  have hstop : s.takeWhile Char.isDigit = [] := by
    cases s with
    | nil => rfl
    | cons c rest => exact List.takeWhile_cons_of_neg (by simp [endsNumber_cons.mp hs])
  rw [List.takeWhile_append_of_pos hdigits, hstop, List.append_nil]

theorem readable_debugNat : Readable debugNat := by
  constructor
  · intro a b s t hs ht h
    rw [← takeWhile_debugNat a hs, h, takeWhile_debugNat b ht]
  · intro a b h
    have hvalue := congrArg (fun digits => Nat.ofDigitChars 10 digits 0) h
    simpa [debugNat, Nat.ofDigitChars_ten_toDigits] using hvalue

/-! ### Separators -/

theorem intercalate_cons (sep text : List Char) (texts : List (List Char)) :
    List.intercalate sep (text :: texts) = text ++ texts.flatMap (sep ++ ·) := by
  induction texts generalizing text with
  | nil => simp [List.intercalate]
  | cons next texts ih =>
    have hcons : List.intercalate sep (text :: next :: texts) =
        text ++ (sep ++ List.intercalate sep (next :: texts)) := by
      simp [List.intercalate]
    rw [hcons, ih, List.flatMap_cons, List.append_assoc]

theorem endsNumber_flatMap {sep : List Char} (hsep : ∀ rest, EndsNumber (sep ++ rest))
    (texts : List (List Char)) {s : List Char} (hs : EndsNumber s) :
    EndsNumber (texts.flatMap (sep ++ ·) ++ s) := by
  cases texts with
  | nil => exact hs
  | cons text texts =>
    rw [List.flatMap_cons, List.append_assoc, List.append_assoc]
    exact hsep _

/-- The fields of two values, each behind a separator: if the texts agree, so does
    every field. -/
theorem flatMap_fields_inj {sep : List Char} (hsep : ∀ rest, EndsNumber (sep ++ rest))
    {fields : List (α → List Char)} (hfields : ∀ text ∈ fields, Delimited text) {a b : α}
    {s t : List Char} (hs : EndsNumber s) (ht : EndsNumber t)
    (h : (fields.map (· a)).flatMap (sep ++ ·) ++ s = (fields.map (· b)).flatMap (sep ++ ·) ++ t) :
    (∀ text ∈ fields, text a = text b) ∧ s = t := by
  induction fields with
  | nil => exact ⟨by simp, h⟩
  | cons text rest ih =>
    simp only [List.map_cons, List.flatMap_cons, List.append_assoc] at h
    have htext := hfields text List.mem_cons_self
    have hothers : ∀ other ∈ rest, Delimited other := by
      intro other hother
      exact hfields other (List.mem_cons_of_mem _ hother)
    obtain ⟨hfirst, hbehind⟩ := htext.append_inj (endsNumber_flatMap hsep _ hs)
      (endsNumber_flatMap hsep _ ht) (List.append_cancel_left h)
    obtain ⟨hsame, hst⟩ := ih hothers hbehind
    exact ⟨List.forall_mem_cons.mpr ⟨hfirst, hsame⟩, hst⟩

theorem intercalate_fields_inj {sep : List Char} (hsep : ∀ rest, EndsNumber (sep ++ rest))
    {fields : List (α → List Char)} (hfields : ∀ text ∈ fields, Delimited text) {a b : α}
    {s t : List Char} (hs : EndsNumber s) (ht : EndsNumber t)
    (h : List.intercalate sep (fields.map (· a)) ++ s =
      List.intercalate sep (fields.map (· b)) ++ t) :
    (∀ text ∈ fields, text a = text b) ∧ s = t := by
  cases fields with
  | nil => exact ⟨by simp, h⟩
  | cons text rest =>
    apply flatMap_fields_inj hsep hfields hs ht
    simp only [List.map_cons, intercalate_cons, List.flatMap_cons, List.append_assoc] at h ⊢
    rw [h]

/-- Values, each behind a separator, up to a closing text that is no separator. -/
theorem flatMap_values_inj {debug : α → List Char} (hdebug : Readable debug)
    {sep close : List Char} (hsep : ∀ rest, EndsNumber (sep ++ rest))
    (hclose : ∀ rest, EndsNumber (close ++ rest))
    (hne : ∀ s t, sep ++ s ≠ close ++ t) {xs ys : List α} {s t : List Char}
    (h : (xs.map debug).flatMap (sep ++ ·) ++ (close ++ s) =
      (ys.map debug).flatMap (sep ++ ·) ++ (close ++ t)) : xs = ys ∧ s = t := by
  induction xs generalizing ys with
  | nil =>
    cases ys with
    | nil => exact ⟨rfl, List.append_cancel_left h⟩
    | cons y ys =>
      simp only [List.map_cons, List.flatMap_cons, List.append_assoc] at h
      -- one list ends where the other goes on, and the next characters differ
      exact absurd h.symm (hne _ _)
  | cons x xs ih =>
    cases ys with
    | nil =>
      simp only [List.map_cons, List.flatMap_cons, List.append_assoc] at h
      exact absurd h (hne _ _)
    | cons y ys =>
      simp only [List.map_cons, List.flatMap_cons, List.append_assoc] at h
      obtain ⟨hhead, hbehind⟩ := hdebug.append_inj (endsNumber_flatMap hsep _ (hclose s))
        (endsNumber_flatMap hsep _ (hclose t)) (List.append_cancel_left h)
      obtain ⟨htail, hst⟩ := ih hbehind
      exact ⟨by rw [hhead, htail], hst⟩

/-! ### Lists, tuples and structs -/

/-- Lists of values whose texts cannot be taken for the closing bracket. -/
theorem debugList_append_inj {debug : α → List Char} (hdebug : Readable debug)
    (hopen : ∀ a s t, debug a ++ s ≠ ']' :: t) {xs ys : List α} {s t : List Char}
    (h : debugList debug xs ++ s = debugList debug ys ++ t) : xs = ys ∧ s = t := by
  have hsep : ∀ rest, EndsNumber ([',', ' '] ++ rest) := by simp
  have hclose : ∀ rest, EndsNumber ([']'] ++ rest) := by simp
  have hne : ∀ u v : List Char, [',', ' '] ++ u ≠ [']'] ++ v := by simp
  simp only [debugList, List.cons_append, List.cons.injEq, true_and, List.append_assoc] at h
  cases xs with
  | nil =>
    cases ys with
    | nil => exact ⟨rfl, by simpa using h⟩
    | cons y ys =>
      rw [List.map_cons, intercalate_cons, List.append_assoc] at h
      -- an empty list closes at once
      exact absurd h.symm (hopen y _ _)
  | cons x xs =>
    cases ys with
    | nil =>
      rw [List.map_cons, intercalate_cons, List.append_assoc] at h
      exact absurd h (hopen x _ _)
    | cons y ys =>
      simp only [List.map_cons, intercalate_cons, List.append_assoc] at h
      obtain ⟨hhead, hbehind⟩ := hdebug.append_inj (endsNumber_flatMap hsep _ (hclose s))
        (endsNumber_flatMap hsep _ (hclose t)) h
      obtain ⟨htail, hst⟩ := flatMap_values_inj hdebug hsep hclose hne hbehind
      exact ⟨by rw [hhead, htail], hst⟩

theorem readable_debugList {debug : α → List Char} (hdebug : Readable debug)
    (hopen : ∀ a s t, debug a ++ s ≠ ']' :: t) : Readable (debugList debug) := by
  constructor
  · intro xs ys s t _ _ h
    rw [(debugList_append_inj hdebug hopen h).1]
  · intro xs ys h
    exact (debugList_append_inj hdebug hopen (congrArg (· ++ []) h)).1

theorem readable_debugTuple {debug : α → List Char} (name : String) (hdebug : Readable debug) :
    Readable fun a => debugTuple name (debug a) := by
  have hclose : ∀ rest, EndsNumber ([')'] ++ rest) := by simp
  constructor
  · exact ((hdebug.delimited.append hclose).prepend ['(']).prepend name.toList
  · intro a b h
    have hfield : '(' :: (debug a ++ [')']) = '(' :: (debug b ++ [')']) := List.append_cancel_left h
    have hfield' := List.append_cancel_right (List.cons.inj hfield).2
    exact hdebug.injective hfield'

/-- `label: text`, the text of one field. -/
def debugField (field : String × (α → List Char)) (a : α) : List Char :=
  field.1.toList ++ ':' :: ' ' :: field.2 a

theorem debugStruct_eq (name : String) (fields : List (String × (α → List Char))) (a : α) :
    debugStruct name (fields.map fun field => (field.1, field.2 a)) =
      (name.toList ++ " \x7b ".toList) ++
        (List.intercalate [',', ' '] ((fields.map debugField).map (· a)) ++ " \x7d".toList) := by
  rw [debugStruct, List.map_map, List.map_map, List.append_assoc, List.append_assoc,
    List.append_assoc]
  rfl

theorem debugStruct_append_inj {name : String} {fields : List (String × (α → List Char))}
    (hfields : ∀ field ∈ fields, Delimited field.2) {a b : α} {s t : List Char}
    (h : debugStruct name (fields.map fun field => (field.1, field.2 a)) ++ s =
      debugStruct name (fields.map fun field => (field.1, field.2 b)) ++ t) :
    ∀ field ∈ fields, field.2 a = field.2 b := by
  have hsep : ∀ rest, EndsNumber ([',', ' '] ++ rest) := by simp
  have hclose : ∀ rest, EndsNumber (" \x7d".toList ++ rest) := by simp
  have hentries : ∀ entry ∈ fields.map debugField, Delimited entry := by
    intro entry hentry
    obtain ⟨field, hfield, rfl⟩ := List.mem_map.mp hentry
    exact ((hfields field hfield).prepend [':', ' ']).prepend field.1.toList
  simp only [debugStruct_eq, List.append_assoc] at h
  have hbody := List.append_cancel_left (List.append_cancel_left h)
  obtain ⟨hall, -⟩ := intercalate_fields_inj hsep hentries (hclose s) (hclose t) hbody
  intro field hfield
  have hentry := hall (debugField field) (List.mem_map_of_mem hfield)
  exact (List.cons.inj (List.cons.inj (List.append_cancel_left hentry)).2).2

/-- A struct with delimited field texts that determine the value. -/
theorem readable_debugStruct (name : String) (fields : List (String × (α → List Char)))
    (hfields : ∀ field ∈ fields, Delimited field.2)
    (hdetermined : ∀ a b, (∀ field ∈ fields, field.2 a = field.2 b) → a = b) :
    Readable fun a => debugStruct name (fields.map fun field => (field.1, field.2 a)) := by
  constructor
  · intro a b s t _ _ h
    rw [hdetermined a b (debugStruct_append_inj hfields h)]
  · intro a b h
    exact hdetermined a b (debugStruct_append_inj hfields (congrArg (· ++ []) h))

/-! ### Bytes -/

theorem length_debugHex (bytes : List UInt8) : (debugHex bytes).length = 2 * bytes.length := by
  induction bytes with
  | nil => rfl
  | cons byte bytes ih =>
    change (debugHex bytes).length + 2 = 2 * (bytes.length + 1)
    rw [ih, Nat.mul_succ]

theorem digitChar_inj_of_lt : ∀ m < 16, ∀ n < 16, Nat.digitChar m = Nat.digitChar n → m = n := by
  decide

theorem debugHex_injective : Function.Injective debugHex := by
  intro bytes
  induction bytes with
  | nil =>
    intro others h
    cases others with
    | nil => rfl
    | cons other others => cases h
  | cons byte bytes ih =>
    intro others h
    cases others with
    | nil => cases h
    | cons other others =>
      obtain ⟨hhigh, hlowRest⟩ := List.cons.inj h
      obtain ⟨hlow, hrest⟩ := List.cons.inj hlowRest
      have hbyte := byte.toNat_lt
      have hother := other.toNat_lt
      have hdiv := digitChar_inj_of_lt _ (by omega) _ (by omega) hhigh
      have hmod := digitChar_inj_of_lt _ (by omega) _ (by omega) hlow
      have hnat : byte.toNat = other.toNat := by omega
      rw [UInt8.toNat_inj.mp hnat, ih hrest]

theorem intoBytes_injective : Function.Injective intoBytes := by
  intro text other h
  have hutf8 : text.utf8Encode = other.utf8Encode := congrArg List.toByteArray h
  rw [← String.toByteArray_ofList, ← String.toByteArray_ofList] at hutf8
  exact String.ofList_injective (String.toByteArray_inj.mp hutf8)

end PartyMix.DebugText
