import Mathlib.Data.List.Basic
import Mathlib.Data.Char

/-! # Compact JSON texts

JSON values and the text that a compact writer makes of them. The text of a value
tells where it ends, so values are read off texts in one way only: different values
have different texts. -/
namespace Json

/-! ## Strings -/

def hexDigit (n : Nat) : Char := if n < 10 then Char.ofNat (48 + n) else Char.ofNat (87 + n)

def hexValue (c : Char) : Nat := if c.toNat < 58 then c.toNat - 48 else c.toNat - 87

/-- The letter behind the backslash of a short escape. -/
def shortEscape : Char → Option Char
  | '"' => some '"'
  | '\\' => some '\\'
  | '\x08' => some 'b'
  | '\x0c' => some 'f'
  | '\n' => some 'n'
  | '\r' => some 'r'
  | '\t' => some 't'
  | _ => none

def escape (c : Char) : List Char :=
  match shortEscape c with
  | some letter => ['\\', letter]
  | none =>
    if c.toNat < 32 then
      ['\\', 'u', '0', '0', hexDigit (c.toNat / 16), hexDigit (c.toNat % 16)]
    else [c]

def unescapeLetter : Char → Char
  | 'b' => '\x08'
  | 'f' => '\x0c'
  | 'n' => '\n'
  | 'r' => '\r'
  | 't' => '\t'
  | c => c

/-- Reads one escaped character. -/
def unescape : List Char → Option (Char × List Char)
  | '\\' :: 'u' :: '0' :: '0' :: high :: low :: rest =>
    some (Char.ofNat (16 * hexValue high + hexValue low), rest)
  | '\\' :: letter :: rest => some (unescapeLetter letter, rest)
  | c :: rest => some (c, rest)
  | [] => none

def quoted (text : String) : List Char := '"' :: (text.toList.flatMap escape ++ ['"'])

theorem hexValue_hexDigit : ∀ n < 32, 16 * hexValue (hexDigit (n / 16)) +
    hexValue (hexDigit (n % 16)) = n := by decide

theorem unescape_escape (c : Char) (rest : List Char) :
    unescape (escape c ++ rest) = some (c, rest) := by
  unfold escape
  split
  · next letter h =>
    unfold shortEscape at h
    split at h
    case h_8 => cases h
    all_goals
      obtain rfl := Option.some.inj h
      rfl
  · next h =>
    split
    · next hlt =>
      show some (Char.ofNat _, rest) = _
      rw [hexValue_hexDigit c.toNat hlt, Char.ofNat_toNat]
    · have hne : c ≠ '\\' := by
        rintro rfl
        cases h
      rw [List.singleton_append, unescape.eq_def]
      split
      · next he => exact absurd (List.cons.inj he).1 hne
      · next he => exact absurd (List.cons.inj he).1 hne
      · next he =>
        obtain ⟨rfl, rfl⟩ := List.cons.inj he
        rfl
      · next he => cases he

theorem escape_head (c : Char) : ∃ first rest, escape c = first :: rest ∧ first ≠ '"' := by
  unfold escape
  split
  · exact ⟨_, _, rfl, by decide⟩
  · next h =>
    split
    · exact ⟨_, _, rfl, by decide⟩
    · refine ⟨_, _, rfl, ?_⟩
      rintro rfl
      cases h

theorem escapes_split : ∀ {cs ds s t : List Char},
    cs.flatMap escape ++ '"' :: s = ds.flatMap escape ++ '"' :: t → cs = ds ∧ s = t
  | [], [], _, _, h => ⟨rfl, (List.cons.inj h).2⟩
  | [], d :: ds, _, _, h => by
    obtain ⟨first, rest, he, hne⟩ := escape_head d
    rw [List.flatMap_cons, he] at h
    exact absurd (List.cons.inj h).1.symm hne
  | c :: cs, [], _, _, h => by
    obtain ⟨first, rest, he, hne⟩ := escape_head c
    rw [List.flatMap_cons, he] at h
    exact absurd (List.cons.inj h).1 hne
  | c :: cs, d :: ds, s, t, h => by
    rw [List.flatMap_cons, List.flatMap_cons, List.append_assoc, List.append_assoc] at h
    have hread := congrArg unescape h
    rw [unescape_escape, unescape_escape] at hread
    obtain ⟨rfl, hrest⟩ := Prod.mk.inj (Option.some.inj hread)
    obtain ⟨rfl, rfl⟩ := escapes_split hrest
    exact ⟨rfl, rfl⟩

theorem quoted_split {a b : String} {s t : List Char} (h : quoted a ++ s = quoted b ++ t) :
    a = b ∧ s = t := by
  rw [quoted, quoted, List.cons_append, List.cons_append, List.append_assoc,
    List.append_assoc] at h
  obtain ⟨hchars, hrest⟩ := escapes_split (List.cons.inj h).2
  exact ⟨String.toList_inj.mp hchars, hrest⟩

/-- The characters of a string whose escapes are resolved. -/
def unescapeAll : (fuel : Nat) → List Char → Option (List Char)
  | _, [] => some []
  | 0, _ :: _ => none
  | fuel + 1, first :: rest => do
    let (c, rest) ← unescape (first :: rest)
    let text ← unescapeAll fuel rest
    some (c :: text)

theorem unescapeAll_escape : ∀ (text : List Char) (fuel : Nat),
    (text.flatMap escape).length ≤ fuel → unescapeAll fuel (text.flatMap escape) = some text
  | [], fuel, _ => by
    rw [List.flatMap_nil, unescapeAll]
  | c :: text, fuel, h => by
    obtain ⟨first, rest, he, _⟩ := escape_head c
    have hread := unescape_escape c (text.flatMap escape)
    rw [List.flatMap_cons] at h ⊢
    rw [he] at h hread ⊢
    cases fuel with
    | zero => simp at h
    | succ fuel =>
      rw [List.cons_append, List.length_cons, List.length_append] at h
      have ih := unescapeAll_escape text fuel (by omega)
      rw [List.cons_append] at hread ⊢
      rw [unescapeAll, hread]
      show (unescapeAll fuel (text.flatMap escape) >>= _) = _
      rw [ih]
      rfl

/-- A character is written as itself or behind a backslash. -/
theorem escape_of_not_mem {c : Char} (h : '\\' ∉ escape c) : escape c = [c] := by
  unfold escape at h ⊢
  split
  · next letter hletter =>
    rw [hletter] at h
    exact absurd (List.mem_cons_self ..) h
  · next hnone =>
    rw [hnone] at h
    split
    · next hcontrol =>
      rw [if_pos hcontrol] at h
      exact absurd (List.mem_cons_self ..) h
    · rfl

/-! ## Numbers -/

def numeric (c : Char) : Bool := c.isDigit || c ∈ ['+', '-', '.', 'e', 'E']

/-- The literal of a number. -/
structure Number where
  text : List Char
  nonempty : text ≠ []
  numeric : ∀ c ∈ text, numeric c = true

/-- What follows a value cannot continue a number. -/
def Ends (rest : List Char) : Prop := ∀ c ∈ rest.head?, numeric c = false

theorem numerals_split : ∀ {l m s t : List Char}, (∀ c ∈ l, numeric c = true) →
    (∀ c ∈ m, numeric c = true) → Ends s → Ends t → l ++ s = m ++ t → l = m ∧ s = t
  | [], [], _, _, _, _, _, _, h => ⟨rfl, h⟩
  | [], d :: m, s, t, _, hm, hs, _, h => by
    obtain rfl : s = d :: (m ++ t) := h
    have hd := hm d (List.mem_cons_self ..)
    rw [hs d rfl] at hd
    cases hd
  | c :: l, [], s, t, hl, _, _, ht, h => by
    obtain rfl : t = c :: (l ++ s) := h.symm
    have hc := hl c (List.mem_cons_self ..)
    rw [ht c rfl] at hc
    cases hc
  | c :: l, d :: m, s, t, hl, hm, hs, ht, h => by
    obtain ⟨rfl, hrest⟩ := List.cons.inj h
    obtain ⟨rfl, rfl⟩ := numerals_split (fun x hx => hl x (List.mem_cons_of_mem _ hx))
      (fun x hx => hm x (List.mem_cons_of_mem _ hx)) hs ht hrest
    exact ⟨rfl, rfl⟩

/-- The decimal literal of a natural number. -/
def Number.ofNat (n : Nat) : Number where
  text := Nat.toDigits 10 n
  nonempty := Nat.toDigits_ne_nil
  numeric c hc := by
    rw [Json.numeric, Nat.isDigit_of_mem_toDigits (by decide) (by decide) hc]
    rfl

theorem Number.ofNat_injective : Function.Injective Number.ofNat := by
  intro m n h
  have hdigits : Nat.toDigits 10 m = Nat.toDigits 10 n := congrArg Number.text h
  have hvalue := congrArg (fun digits => Nat.ofDigitChars 10 digits 0) hdigits
  simpa using hvalue

end Json

/-! ## Values -/

mutual

inductive Json where
  | null
  | bool (value : Bool)
  | number (value : Json.Number)
  | text (value : String)
  | array (elements : Json.Elements)
  | object (members : Json.Members)

inductive Json.Elements where
  | nil
  | cons (element : Json) (rest : Json.Elements)

inductive Json.Members where
  | nil
  | cons (key : String) (value : Json) (rest : Json.Members)

end

namespace Json

/-- The comma before every element but the first. -/
def separator (first : Bool) : List Char := if first then [] else [',']

mutual

def render : Json → List Char
  | .null => ['n', 'u', 'l', 'l']
  | .bool true => ['t', 'r', 'u', 'e']
  | .bool false => ['f', 'a', 'l', 's', 'e']
  | .number value => value.text
  | .text value => quoted value
  | .array elements => '[' :: elements.render true
  | .object members => '\x7b' :: members.render true

/-- The elements of an array and its closing bracket. -/
def Elements.render (first : Bool) : Elements → List Char
  | .nil => [']']
  | .cons element rest => separator first ++ (element.render ++ rest.render false)

/-- The members of an object and its closing brace. -/
def Members.render (first : Bool) : Members → List Char
  | .nil => ['\x7d']
  | .cons key value rest =>
    separator first ++ (quoted key ++ ':' :: (value.render ++ rest.render false))

end

/-! ## Unique readability -/

/-- Which values begin with a character. -/
def leads (c : Char) : Nat :=
  match c with
  | 'n' => 0
  | 't' => 1
  | 'f' => 2
  | '"' => 4
  | '[' => 5
  | '\x7b' => 6
  | _ => if numeric c then 3 else 7

def kind : Json → Nat
  | .null => 0
  | .bool true => 1
  | .bool false => 2
  | .number _ => 3
  | .text _ => 4
  | .array _ => 5
  | .object _ => 6

theorem leads_numeric {c : Char} (h : numeric c = true) : leads c = 3 := by
  unfold leads
  split
  case h_7 => exact if_pos h
  all_goals cases h

theorem render_head : ∀ j : Json, ∃ c rest, j.render = c :: rest ∧ leads c = j.kind
  | .null => ⟨_, _, rfl, rfl⟩
  | .bool true => ⟨_, _, rfl, rfl⟩
  | .bool false => ⟨_, _, rfl, rfl⟩
  | .number value => by
    obtain ⟨c, rest, he⟩ := List.exists_cons_of_ne_nil value.nonempty
    exact ⟨c, rest, he, leads_numeric (value.numeric c (he ▸ List.mem_cons_self ..))⟩
  | .text _ => ⟨_, _, rfl, rfl⟩
  | .array _ => ⟨_, _, rfl, rfl⟩
  | .object _ => ⟨_, _, rfl, rfl⟩

theorem kind_lt (j : Json) : j.kind < 7 := by
  cases j with
  | bool value => cases value <;> decide
  | _ => simp [kind]

theorem kind_eq {a b : Json} {s t : List Char} (h : a.render ++ s = b.render ++ t) :
    a.kind = b.kind := by
  obtain ⟨c, rest, ha, hc⟩ := render_head a
  obtain ⟨d, rest', hb, hd⟩ := render_head b
  rw [ha, hb] at h
  rw [← hc, ← hd, (List.cons.inj h).1]

/-- No value begins with a character of this kind. -/
theorem render_ne {a : Json} {c : Char} {s t : List Char} (hc : leads c = 7) :
    a.render ++ s ≠ c :: t := by
  intro h
  obtain ⟨d, rest, ha, hd⟩ := render_head a
  rw [ha] at h
  have hlt := a.kind_lt
  rw [← hd, (List.cons.inj h).1, hc] at hlt
  exact absurd hlt (Nat.lt_irrefl 7)

theorem ends_elements (es : Elements) (s : List Char) : Ends (es.render false ++ s) := by
  cases es <;>
  · intro c hc
    obtain rfl := Option.some.inj hc
    rfl

theorem ends_members (ms : Members) (s : List Char) : Ends (ms.render false ++ s) := by
  cases ms <;>
  · intro c hc
    obtain rfl := Option.some.inj hc
    rfl

mutual

/-- A value and what follows it are determined by their text. -/
theorem render_split : ∀ {a b : Json} {s t : List Char}, Ends s → Ends t →
    a.render ++ s = b.render ++ t → a = b ∧ s = t
  | .null, b, s, t, _, _, h => by
    have hkind := kind_eq h
    cases b with
    | null => exact ⟨rfl, List.append_cancel_left h⟩
    | bool value => cases value <;> cases hkind
    | _ => cases hkind
  | .bool value, b, s, t, _, _, h => by
    have hkind := kind_eq h
    cases b with
    | bool value' =>
      obtain rfl : value = value' := by cases value <;> cases value' <;> first | rfl | cases hkind
      exact ⟨rfl, List.append_cancel_left h⟩
    | _ => cases value <;> cases hkind
  | .number n, b, s, t, hs, ht, h => by
    have hkind := kind_eq h
    cases b with
    | number m =>
      obtain ⟨htext, hrest⟩ := numerals_split n.numeric m.numeric hs ht h
      obtain rfl : n = m := by
        cases n
        cases m
        congr
      exact ⟨rfl, hrest⟩
    | bool value => cases value <;> cases hkind
    | _ => cases hkind
  | .text value, b, s, t, _, _, h => by
    have hkind := kind_eq h
    cases b with
    | text value' =>
      obtain ⟨rfl, hrest⟩ := quoted_split h
      exact ⟨rfl, hrest⟩
    | bool value => cases value <;> cases hkind
    | _ => cases hkind
  | .array es, b, s, t, _, _, h => by
    have hkind := kind_eq h
    cases b with
    | array fs =>
      obtain ⟨rfl, hrest⟩ := elements_split (List.cons.inj h).2
      exact ⟨rfl, hrest⟩
    | bool value => cases value <;> cases hkind
    | _ => cases hkind
  | .object ms, b, s, t, _, _, h => by
    have hkind := kind_eq h
    cases b with
    | object ns =>
      obtain ⟨rfl, hrest⟩ := members_split (List.cons.inj h).2
      exact ⟨rfl, hrest⟩
    | bool value => cases value <;> cases hkind
    | _ => cases hkind

theorem elements_split : ∀ {first : Bool} {es fs : Elements} {s t : List Char},
    es.render first ++ s = fs.render first ++ t → es = fs ∧ s = t
  | _, .nil, .nil, _, _, h => ⟨rfl, (List.cons.inj h).2⟩
  | true, .nil, .cons f fs, s, t, h => by
    refine absurd h.symm ?_
    show f.render ++ fs.render false ++ t ≠ _
    rw [List.append_assoc]
    exact render_ne rfl
  | false, .nil, .cons f fs, s, t, h => absurd (List.cons.inj h).1 (by decide)
  | true, .cons e es, .nil, s, t, h => by
    refine absurd h ?_
    show e.render ++ es.render false ++ s ≠ _
    rw [List.append_assoc]
    exact render_ne rfl
  | false, .cons e es, .nil, s, t, h => absurd (List.cons.inj h).1 (by decide)
  | first, .cons e es, .cons f fs, s, t, h => by
    simp only [Elements.render, List.append_assoc] at h
    obtain ⟨rfl, hrest⟩ :=
      render_split (ends_elements es s) (ends_elements fs t) (List.append_cancel_left h)
    obtain ⟨rfl, htail⟩ := elements_split hrest
    exact ⟨rfl, htail⟩

theorem members_split : ∀ {first : Bool} {ms ns : Members} {s t : List Char},
    ms.render first ++ s = ns.render first ++ t → ms = ns ∧ s = t
  | _, .nil, .nil, _, _, h => ⟨rfl, (List.cons.inj h).2⟩
  | true, .nil, .cons key value rest, s, t, h => absurd (List.cons.inj h).1 (by decide)
  | false, .nil, .cons key value rest, s, t, h => absurd (List.cons.inj h).1 (by decide)
  | true, .cons key value rest, .nil, s, t, h => absurd (List.cons.inj h).1 (by decide)
  | false, .cons key value rest, .nil, s, t, h => absurd (List.cons.inj h).1 (by decide)
  | first, .cons key value rest, .cons key' value' rest', s, t, h => by
    simp only [Members.render, List.append_assoc] at h
    obtain ⟨rfl, hvalue⟩ := quoted_split (List.append_cancel_left h)
    simp only [List.cons_append, List.append_assoc] at hvalue
    obtain ⟨rfl, hrest⟩ :=
      render_split (ends_members rest s) (ends_members rest' t) (List.cons.inj hvalue).2
    obtain ⟨rfl, htail⟩ := members_split hrest
    exact ⟨rfl, htail⟩

end

/-- Different values have different texts. -/
theorem render_injective : Function.Injective render := by
  intro a b h
  have hends : Ends [] := fun c hc => by cases hc
  have happ : a.render ++ [] = b.render ++ [] := by rw [h]
  exact (render_split hends hends happ).1

/-! ## Building values -/

def Elements.ofList : List Json → Elements
  | [] => .nil
  | element :: rest => .cons element (ofList rest)

def Members.ofList : List (String × Json) → Members
  | [] => .nil
  | (key, value) :: rest => .cons key value (ofList rest)

theorem Elements.ofList_inj : ∀ {l m : List Json}, ofList l = ofList m → l = m
  | [], [], _ => rfl
  | [], _ :: _, h => by cases h
  | _ :: _, [], h => by cases h
  | a :: l, b :: m, h => by
    obtain ⟨rfl, hrest⟩ := Elements.cons.inj h
    rw [ofList_inj hrest]

theorem Members.ofList_inj : ∀ {l m : List (String × Json)}, ofList l = ofList m → l = m
  | [], [], _ => rfl
  | [], _ :: _, h => by cases h
  | _ :: _, [], h => by cases h
  | (k, a) :: l, (k', b) :: m, h => by
    obtain ⟨rfl, rfl, hrest⟩ := Members.cons.inj h
    rw [ofList_inj hrest]

def list (elements : List Json) : Json := .array (.ofList elements)

def fields (members : List (String × Json)) : Json := .object (.ofList members)

def nat (n : Nat) : Json := .number (.ofNat n)

@[simp] theorem list_inj {l m : List Json} : list l = list m ↔ l = m :=
  ⟨fun h => Elements.ofList_inj (Json.array.inj h), fun h => by rw [h]⟩

@[simp] theorem fields_inj {l m : List (String × Json)} : fields l = fields m ↔ l = m :=
  ⟨fun h => Members.ofList_inj (Json.object.inj h), fun h => by rw [h]⟩

@[simp] theorem nat_inj {m n : Nat} : nat m = nat n ↔ m = n :=
  ⟨fun h => Number.ofNat_injective (Json.number.inj h), fun h => by rw [h]⟩

end Json
