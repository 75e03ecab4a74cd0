import Mathlib

/-!
# Reading XML

A reader for documents of elements, attributes, text and references, as a sequence of
events. Comments, CDATA sections, processing instructions and document types are refused,
and line ends are passed on as they are. A reference stands for one character and takes at
least four, so text that contains an ampersand never means itself (`unescape_length`).
-/

namespace Xml

abbrev Text := List Char

/-- The characters of a string literal. -/
def str (s : String) : Text := s.toList

inductive Event where
  | start (name : Text) (attrs : List (Text × Text))
  | stop (name : Text)
  | char (c : Char)
  deriving DecidableEq

/-! ## Characters and references -/

/-- The characters that a document may contain. -/
def isChar (c : Char) : Bool :=
  c = '\t' || c = '\n' || c = '\r' || (' ' ≤ c && c.toNat ≤ 0xFFFD) || 0x10000 ≤ c.toNat

def isSpace (c : Char) : Bool := c = ' ' || c = '\t' || c = '\n' || c = '\r'

def isNameStart (c : Char) : Bool := c.isAlpha || c = '_' || c = ':' || 0x80 ≤ c.toNat

def isNameChar (c : Char) : Bool := isNameStart c || c.isDigit || c = '-' || c = '.'

/-- The value of a hexadecimal digit. -/
def hexDigit (c : Char) : Option Nat :=
  if c.isDigit then some (c.toNat - 48)
  else if 'a' ≤ c ∧ c ≤ 'f' then some (c.toNat - 87)
  else if 'A' ≤ c ∧ c ≤ 'F' then some (c.toNat - 55)
  else none

/-- A number in a base, with at least one digit. -/
def numeral (base : Nat) (acc : Nat) : Text → Option Nat
  | [] => none
  | c :: cs =>
    match hexDigit c with
    | none => none
    | some d =>
      if d < base then
        if cs = [] then some (acc * base + d) else numeral base (acc * base + d) cs
      else none

/-- The character with a number, if it is one that a document may contain. -/
def charOf (n : Nat) : Option Char :=
  if n.isValidChar ∧ isChar (Char.ofNat n) then some (Char.ofNat n) else none

/-- The character that a reference stands for, by the text between `&` and `;`. -/
def entityValue : Text → Option Char
  | '#' :: 'x' :: ds => (numeral 16 0 ds).bind charOf
  | '#' :: ds => (numeral 10 0 ds).bind charOf
  | name =>
    if name = str "lt" then some '<'
    else if name = str "gt" then some '>'
    else if name = str "amp" then some '&'
    else if name = str "quot" then some '"'
    else if name = str "apos" then some '\''
    else none

/-- The reference behind an ampersand, with what follows its semicolon. -/
def reference (s : Text) : Option (Char × Text) :=
  match s.dropWhile (· ≠ ';') with
  | [] => none
  | _ :: rest => (entityValue (s.takeWhile (· ≠ ';'))).map fun c => (c, rest)

theorem reference_length {s rest : Text} {c : Char} (h : reference s = some (c, rest)) :
    rest.length < s.length := by
  unfold reference at h
  split at h
  · cases h
  · rename_i b rest' hdrop
    obtain ⟨c', -, hc⟩ := Option.map_eq_some_iff.mp h
    cases hc
    have hlen := congrArg List.length (List.takeWhile_append_dropWhile (p := (· ≠ ';')) (l := s))
    rw [hdrop, List.length_append, List.length_cons] at hlen
    omega

/-- The text that raw text stands for. -/
def unescape (s : Text) : Option Text :=
  match s with
  | [] => some []
  | c :: cs =>
    if c = '&' then
      match _h : reference cs with
      | none => none
      | some (v, rest) => (unescape rest).map (v :: ·)
    else (unescape cs).map (c :: ·)
termination_by s.length
decreasing_by
  · have := reference_length _h
    simp only [List.length_cons]
    omega
  · simp

/-! ## Tags -/

inductive Tag where
  | start (name : Text) (attrs : List (Text × Text))
  | empty (name : Text) (attrs : List (Text × Text))
  | stop (name : Text)

/-- The value of an attribute. -/
def attrValue (raw : Text) : Option Text := if '<' ∈ raw then none else unescape raw

/-- One attribute, with what follows its closing quote. -/
def parseAttr (s : Text) : Option ((Text × Text) × Text) :=
  let name := s.takeWhile isNameChar
  match (s.dropWhile isNameChar).dropWhile isSpace with
  | '=' :: r =>
    match r.dropWhile isSpace with
    | q :: r =>
      if (q = '"' ∨ q = '\'') ∧ name.head?.any isNameStart then
        match r.dropWhile (· ≠ q) with
        | [] => none
        | _ :: rest => (attrValue (r.takeWhile (· ≠ q))).map fun v => ((name, v), rest)
      else none
    | [] => none
  | _ => none

theorem length_dropWhile_le (p : Char → Bool) (s : Text) : (s.dropWhile p).length ≤ s.length :=
  (List.dropWhile_suffix p).length_le

theorem parseAttr_length {s rest : Text} {a : Text × Text} (h : parseAttr s = some (a, rest)) :
    rest.length < s.length := by
  unfold parseAttr at h
  dsimp only at h
  split at h
  · rename_i r heq
    have h1 := length_dropWhile_le isSpace (s.dropWhile isNameChar)
    have h2 := length_dropWhile_le isNameChar s
    rw [heq, List.length_cons] at h1
    split at h
    · rename_i q r2 hq
      have h3 := length_dropWhile_le isSpace r
      rw [hq, List.length_cons] at h3
      split at h
      · split at h
        · cases h
        · rename_i b rest' hrest
          have h4 := length_dropWhile_le (· ≠ q) r2
          rw [hrest, List.length_cons] at h4
          obtain ⟨v, -, hv⟩ := Option.map_eq_some_iff.mp h
          cases hv
          omega
      · cases h
    · cases h
  · cases h

/-- Some attribute has the name. -/
def named (name : Text) (attrs : List (Text × Text)) : Bool := attrs.any fun a => a.1 = name

/-- The attributes of a tag up to its end, on top of `acc`. -/
def parseAttrs (name : Text) (acc : List (Text × Text)) (s : Text) : Option (Tag × Text) :=
  match _hs : s.dropWhile isSpace with
  | '/' :: '>' :: rest => some (.empty name acc, rest)
  | '>' :: rest => some (.start name acc, rest)
  | r =>
    -- an attribute is set off by white space, and its name is new
    if r = s then none
    else
      match _h : parseAttr r with
      | none => none
      | some (a, rest) =>
        if named a.1 acc then none else parseAttrs name (acc ++ [a]) rest
termination_by s.length
decreasing_by
  have h1 := parseAttr_length _h
  have h2 := length_dropWhile_le isSpace s
  rw [_hs] at h2
  omega

/-- The tag behind a `<`, with what follows its `>`. -/
def parseTag (s : Text) : Option (Tag × Text) :=
  match s with
  | '/' :: r =>
    match (r.dropWhile isNameChar).dropWhile isSpace with
    | '>' :: rest => some (.stop (r.takeWhile isNameChar), rest)
    | _ => none
  | r =>
    if r.head?.any isNameStart then parseAttrs (r.takeWhile isNameChar) [] (r.dropWhile isNameChar)
    else none

theorem parseAttrs_length {name s rest : Text} {acc : List (Text × Text)} {tag : Tag}
    (h : parseAttrs name acc s = some (tag, rest)) : rest.length < s.length := by
  fun_induction parseAttrs name acc s with
  | case1 acc s rest' hs =>
    have := length_dropWhile_le isSpace s
    cases h
    rw [hs] at this
    simp only [List.length_cons] at this
    omega
  | case2 acc s rest' hs =>
    have := length_dropWhile_le isSpace s
    cases h
    rw [hs] at this
    simp only [List.length_cons] at this
    omega
  | case3 => cases h
  | case4 => cases h
  | case5 => cases h
  | case6 acc s a rest' hnew hempty hstart hne hattr ih =>
    have h1 := ih h
    have h2 := parseAttr_length hattr
    have h3 := length_dropWhile_le isSpace s
    omega

theorem parseTag_length {s rest : Text} {tag : Tag} (h : parseTag s = some (tag, rest)) :
    rest.length < s.length := by
  unfold parseTag at h
  split at h
  · rename_i r
    split at h
    · rename_i rest' heq
      cases h
      have h1 := length_dropWhile_le isSpace (r.dropWhile isNameChar)
      have h2 := length_dropWhile_le isNameChar r
      rw [heq] at h1
      simp only [List.length_cons] at h1 ⊢
      omega
    · cases h
  · split at h
    · have h1 := parseAttrs_length h
      have h2 := length_dropWhile_le isNameChar s
      omega
    · cases h

/-! ## Documents -/

/-- The end of a CDATA section, which text may not contain. -/
def cdEnd : Text := [']', ']', '>']

/-- The events of content within the open elements `stack`, up to the end of the document. -/
def parseContent (stack : List Text) (s : Text) : Option (List Event) :=
  match stack with
  | [] => if s.all isSpace then some [] else none
  | top :: stack =>
    match s with
    | [] => none
    | c :: cs =>
      if c = '<' then
        match _h : parseTag cs with
        | none => none
        | some (.start name attrs, rest) =>
          (parseContent (name :: top :: stack) rest).map (.start name attrs :: ·)
        | some (.empty name attrs, rest) =>
          (parseContent (top :: stack) rest).map fun es => .start name attrs :: .stop name :: es
        | some (.stop name, rest) =>
          if name = top then (parseContent stack rest).map (.stop name :: ·) else none
      else if c = '&' then
        match _h : reference cs with
        | none => none
        | some (v, rest) => (parseContent (top :: stack) rest).map (.char v :: ·)
      else if cdEnd.isPrefixOf (c :: cs) then none
      else (parseContent (top :: stack) cs).map (.char c :: ·)
termination_by s.length
decreasing_by
  · have := parseTag_length _h
    simp only [List.length_cons]
    omega
  · have := parseTag_length _h
    simp only [List.length_cons]
    omega
  · have := parseTag_length _h
    simp only [List.length_cons]
    omega
  · have := reference_length _h
    simp only [List.length_cons]
    omega
  · simp

/-- What follows the first `?>`. -/
def afterDeclaration : Text → Text
  | [] => []
  | '?' :: '>' :: rest => rest
  | _ :: rest => afterDeclaration rest

/-- A document without its byte order mark and its declaration. -/
def stripProlog (s : Text) : Text :=
  let s := if s.head? = some '\uFEFF' then s.tail else s
  if (str "<?xml ").isPrefixOf s then afterDeclaration s else s

/-- The events of a document of one element. -/
def parseDocument (s : Text) : Option (List Event) :=
  if s.all isChar then
    match (stripProlog s).dropWhile isSpace with
    | '<' :: cs =>
      match parseTag cs with
      | some (.start name attrs, rest) => (parseContent [name] rest).map (.start name attrs :: ·)
      | some (.empty name attrs, rest) =>
        if rest.all isSpace then some [.start name attrs, .stop name] else none
      | _ => none
    | _ => none
  else none

/-! ## What references leave of a text -/

theorem hexDigit_isAlphanum {c : Char} {d : Nat} (h : hexDigit c = some d) : c ≠ '&' ∧ c ≠ '<' := by
  constructor
  · rintro rfl
    cases h
  · rintro rfl
    cases h

theorem numeral_chars {base acc n : Nat} {ds : Text} (h : numeral base acc ds = some n) :
    ds ≠ [] ∧ '&' ∉ ds ∧ '<' ∉ ds := by
  induction ds generalizing acc with
  | nil => cases h
  | cons c cs ih =>
    unfold numeral at h
    split at h
    · cases h
    · rename_i d hd
      obtain ⟨hamp, hlt⟩ := hexDigit_isAlphanum hd
      split at h
      · split at h
        · rename_i hnil
          subst hnil
          simp [Ne.symm hamp, Ne.symm hlt]
        · obtain ⟨-, h1, h2⟩ := ih h
          simp [Ne.symm hamp, Ne.symm hlt, h1, h2]
      · cases h

/-- What stands between the ends of a reference. -/
theorem entityValue_chars {name : Text} {c : Char} (h : entityValue name = some c) :
    2 ≤ name.length ∧ '&' ∉ name ∧ '<' ∉ name := by
  unfold entityValue at h
  split at h
  · rename_i ds
    obtain ⟨n, hn, -⟩ := Option.bind_eq_some_iff.mp h
    obtain ⟨-, h1, h2⟩ := numeral_chars hn
    simp [h1, h2]
  · rename_i ds _
    obtain ⟨n, hn, -⟩ := Option.bind_eq_some_iff.mp h
    obtain ⟨hne, h1, h2⟩ := numeral_chars hn
    have := List.length_pos_iff.mpr hne
    simp only [List.length_cons, List.mem_cons, not_or]
    exact ⟨by omega, ⟨by decide, h1⟩, by decide, h2⟩
  · split at h
    · rename_i hname
      rw [hname]
      decide
    · split at h
      · rename_i hname
        rw [hname]
        decide
      · split at h
        · rename_i hname
          rw [hname]
          decide
        · split at h
          · rename_i hname
            rw [hname]
            decide
          · split at h
            · rename_i hname
              rw [hname]
              decide
            · cases h

/-- A reference is its name and a semicolon. -/
theorem reference_split {s rest : Text} {c : Char} (h : reference s = some (c, rest)) :
    ∃ name, s = name ++ ';' :: rest ∧ 2 ≤ name.length ∧ '&' ∉ name ∧ '<' ∉ name := by
  unfold reference at h
  split at h
  · cases h
  · rename_i b rest' hdrop
    obtain ⟨c', hc', heq⟩ := Option.map_eq_some_iff.mp h
    cases heq
    refine ⟨s.takeWhile (· ≠ ';'), ?_, entityValue_chars hc'⟩
    have hb : b = ';' := by
      have := List.head?_dropWhile_not (· ≠ ';') s
      rw [hdrop] at this
      simpa using this
    conv_lhs => rw [← List.takeWhile_append_dropWhile (p := (· ≠ ';')) (l := s)]
    rw [hdrop, hb]

/-- Each reference takes at least four characters for one. -/
theorem unescape_length {s t : Text} (h : unescape s = some t) :
    t.length + 3 * s.count '&' ≤ s.length := by
  fun_induction unescape s generalizing t with
  | case1 =>
    cases h
    simp
  | case2 => cases h
  | case3 cs v rest href ih =>
    obtain ⟨t', ht', rfl⟩ := Option.map_eq_some_iff.mp h
    obtain ⟨name, rfl, hlen, hamp, -⟩ := reference_split href
    have := ih ht'
    have hcount : name.count '&' = 0 := List.count_eq_zero.mpr hamp
    simp only [List.length_cons, List.length_append, List.count_cons, List.count_append, hcount,
      beq_self_eq_true, if_true]
    simp only [show ((';' == '&') = false) from rfl, Bool.false_eq_true, if_false]
    omega
  | case4 c cs hc ih =>
    obtain ⟨t', ht', rfl⟩ := Option.map_eq_some_iff.mp h
    have := ih ht'
    simp only [List.length_cons, List.count_cons, beq_iff_eq, hc, if_false]
    omega

theorem unescape_plain {s : Text} (h : '&' ∉ s) : unescape s = some s := by
  induction s with
  | nil => rw [unescape]
  | cons c cs ih =>
    simp only [List.mem_cons, not_or] at h
    rw [unescape, if_neg (Ne.symm h.1), ih h.2]
    rfl

end Xml
