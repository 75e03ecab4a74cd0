import ToolchainTools.CLib.Text
import ToolchainTools.Xml.Parse

/-!
# Printing XML line by line

A program that prints a document puts each tag on a line of its own, with strings of its
input in the text and in the attributes. Without any escaping, the document that is read
back is the one that was meant exactly when every string is plain for its place
(`parse_lines_iff`): at the first string that is not, the reader reports something else,
whatever comes behind it.
-/

namespace Xml

open CLib

/-! ## Text between tags -/

/-- The text that raw text between two tags stands for. -/
def textValue (s : Text) : Option Text :=
  match s with
  | [] => some []
  | c :: cs =>
    if c = '&' then
      match _h : reference cs with
      | none => none
      | some (v, rest) => (textValue rest).map (v :: ·)
    else if cdEnd.isPrefixOf (c :: cs) then none
    else (textValue cs).map (c :: ·)
termination_by s.length
decreasing_by
  · have := reference_length _h
    simp only [List.length_cons]
    omega
  · simp

theorem unescape_of_textValue {s t : Text} (h : textValue s = some t) : unescape s = some t := by
  fun_induction textValue s generalizing t with
  | case1 =>
    cases h
    rw [unescape]
  | case2 => cases h
  | case3 cs v rest href ih =>
    obtain ⟨t', ht', rfl⟩ := Option.map_eq_some_iff.mp h
    rw [unescape, if_pos rfl]
    split
    · rename_i hnone
      rw [href] at hnone
      cases hnone
    · rename_i v' rest' hsome
      rw [href] at hsome
      cases hsome
      rw [ih ht']
      rfl
  | case4 => cases h
  | case5 c cs hc _ ih =>
    obtain ⟨t', ht', rfl⟩ := Option.map_eq_some_iff.mp h
    rw [unescape, if_neg hc, ih ht']
    rfl

/-- Text that means itself. -/
def TextPlain (s : Text) : Prop := '&' ∉ s ∧ '<' ∉ s ∧ ¬ cdEnd <:+: s

/-- An attribute that means itself. -/
def AttrPlain (s : Text) : Prop := '&' ∉ s ∧ '<' ∉ s ∧ '"' ∉ s

theorem textValue_plain {s : Text} (hamp : '&' ∉ s) (hend : ¬ cdEnd <:+: s) :
    textValue s = some s := by
  induction s with
  | nil => rw [textValue]
  | cons c cs ih =>
    simp only [List.mem_cons, not_or] at hamp
    have hpre : cdEnd.isPrefixOf (c :: cs) = false := by
      by_contra h
      rw [Bool.not_eq_false] at h
      exact hend (List.isPrefixOf_iff_prefix.mp h).isInfix
    have htail : ¬ cdEnd <:+: cs := fun h => hend (h.trans (List.suffix_cons c cs).isInfix)
    rw [textValue, if_neg (Ne.symm hamp.1), hpre, if_neg (by simp), ih hamp.2 htail]
    rfl

theorem not_cdEnd_of_textValue {s t : Text} (hamp : '&' ∉ s) (h : textValue s = some t) :
    ¬ cdEnd <:+: s := by
  induction s generalizing t with
  | nil => simp [cdEnd]
  | cons c cs ih =>
    simp only [List.mem_cons, not_or] at hamp
    rw [textValue, if_neg (Ne.symm hamp.1)] at h
    split at h
    · cases h
    · rename_i hpre
      obtain ⟨t', ht', -⟩ := Option.map_eq_some_iff.mp h
      intro hinf
      rcases List.infix_cons_iff.mp hinf with hp | htail
      · exact hpre (List.isPrefixOf_iff_prefix.mpr hp)
      · exact ih hamp.2 ht' htail

theorem textValue_length {s t : Text} (h : textValue s = some t) :
    t.length + 3 * s.count '&' ≤ s.length :=
  unescape_length (unescape_of_textValue h)

theorem textValue_self_iff {s : Text} :
    textValue s = some s ↔ '&' ∉ s ∧ ¬ cdEnd <:+: s := by
  constructor
  · intro h
    have hlen := textValue_length h
    have hamp : '&' ∉ s := List.count_eq_zero.mp (by omega)
    exact ⟨hamp, not_cdEnd_of_textValue hamp h⟩
  · rintro ⟨hamp, hend⟩
    exact textValue_plain hamp hend

/-- A reference ends before the next tag. -/
theorem reference_before_tag (s rest : Text) :
    reference (s ++ '<' :: rest) = (reference s).map fun p => (p.1, p.2 ++ '<' :: rest) := by
  by_cases hsemi : ';' ∈ s
  · obtain ⟨a, b, rfl, ha⟩ := List.eq_append_cons_of_mem hsemi
    unfold reference
    rw [List.append_assoc, List.cons_append, dropWhile_ne_append ha, dropWhile_ne_append ha,
      takeWhile_ne_append ha, takeWhile_ne_append ha]
    cases entityValue a <;> rfl
  · have hnone : reference s = none := by
      unfold reference
      rw [dropWhile_ne_self hsemi]
    rw [hnone]
    cases h : reference (s ++ '<' :: rest) with
    | none => rfl
    | some p =>
      obtain ⟨name, hsplit, -, -, hlt⟩ := reference_split (show _ = some (p.1, p.2) from h)
      -- the name would have to go beyond the tag
      rcases List.append_eq_append_iff.mp hsplit with ⟨a, rfl, ha⟩ | ⟨a, rfl, ha⟩
      · cases a with
        | nil => simp at ha
        | cons x xs =>
          cases ha
          simp at hlt
      · cases a with
        | nil => simp at ha
        | cons x xs =>
          rw [List.cons_append, List.cons.injEq] at ha
          exact absurd (by rw [← ha.1]; simp) hsemi

theorem isPrefixOf_cdEnd_before_tag (c : Char) (cs rest : Text) :
    cdEnd.isPrefixOf (c :: cs ++ '<' :: rest) = cdEnd.isPrefixOf (c :: cs) := by
  cases cs with
  | nil => simp [cdEnd, List.isPrefixOf]
  | cons d ds =>
    cases ds with
    | nil => simp [cdEnd, List.isPrefixOf]
    | cons e es => simp [cdEnd, List.isPrefixOf]

/-- Content up to the next tag. -/
theorem parseContent_text {top : Text} {stack : List Text} {raw : Text} (h : '<' ∉ raw)
    (rest : Text) :
    parseContent (top :: stack) (raw ++ '<' :: rest) =
      (textValue raw).bind fun m =>
        (parseContent (top :: stack) ('<' :: rest)).map (m.map Event.char ++ ·) := by
  fun_induction textValue raw with
  | case1 => simp
  | case2 cs href =>
    rw [List.cons_append, parseContent, if_neg (by decide), if_pos rfl]
    split
    · rfl
    · rename_i v rest' hsome
      rw [reference_before_tag, href] at hsome
      cases hsome
  | case3 cs v rest' href ih =>
    obtain ⟨name, rfl, -, -, hlt⟩ := reference_split href
    simp only [List.mem_cons, List.mem_append, not_or] at h
    have hih := ih h.2.2.2
    rw [List.cons_append, parseContent, if_neg (by decide), if_pos rfl]
    split
    · rename_i hnone
      rw [reference_before_tag, href] at hnone
      cases hnone
    · rename_i v' rest'' hsome
      rw [reference_before_tag, href] at hsome
      cases hsome
      dsimp only
      rw [hih]
      cases textValue rest' with
      | none => rfl
      | some m => simp [Function.comp_def]
  | case4 c cs hc hend =>
    simp only [List.mem_cons, not_or] at h
    rw [List.cons_append, parseContent, if_neg (Ne.symm h.1), if_neg hc, ← List.cons_append,
      isPrefixOf_cdEnd_before_tag, if_pos hend]
    rfl
  | case5 c cs hc hend ih =>
    simp only [List.mem_cons, not_or] at h
    have hih := ih h.2
    rw [List.cons_append, parseContent, if_neg (Ne.symm h.1), if_neg hc, ← List.cons_append,
      isPrefixOf_cdEnd_before_tag, if_neg hend, hih]
    cases textValue cs with
    | none => rfl
    | some m => simp [Function.comp_def]

/-! ## Lines -/

/-- A line of a document. Between the tags of `text` stands `raw`, which is to mean `meaning`. -/
inductive Line where
  | text (indent : Nat) (name raw meaning : Text)
  | start (indent : Nat) (name : Text) (attrs : List (Text × Text))
  | empty (indent : Nat) (name : Text) (attrs : List (Text × Text))
  | stop (indent : Nat) (name : Text)

def spaces (n : Nat) : Text := List.replicate n ' '

def crlf : Text := ['\r', '\n']

def renderAttrs (attrs : List (Text × Text)) : Text :=
  attrs.flatMap fun a => ' ' :: (a.1 ++ '=' :: '"' :: (a.2 ++ ['"']))

/-- A line as it is printed. -/
def Line.render : Line → Text
  | text n name raw _ => spaces n ++ '<' :: (name ++ '>' :: (raw ++ '<' :: '/' :: (name ++ '>' :: crlf)))
  | start n name attrs => spaces n ++ '<' :: (name ++ (renderAttrs attrs ++ '>' :: crlf))
  | empty n name attrs => spaces n ++ '<' :: (name ++ (renderAttrs attrs ++ ' ' :: '/' :: '>' :: crlf))
  | stop n name => spaces n ++ '<' :: '/' :: (name ++ '>' :: crlf)

/-- A line as it is meant. -/
def Line.events : Line → List Event
  | text n name _ meaning =>
    (spaces n).map .char ++ .start name [] :: (meaning.map .char ++ .stop name :: crlf.map .char)
  | start n name attrs => (spaces n).map .char ++ .start name attrs :: crlf.map .char
  | empty n name attrs => (spaces n).map .char ++ .start name attrs :: .stop name :: crlf.map .char
  | stop n name => (spaces n).map .char ++ .stop name :: crlf.map .char

/-- The open elements after a line within `top :: stack`. -/
def Line.nest : Line → Text → List Text → List Text
  | text .., top, stack => top :: stack
  | start _ name _, top, stack => name :: top :: stack
  | empty .., top, stack => top :: stack
  | stop .., _, stack => stack

/-- A name that is one. -/
structure IsName (n : Text) : Prop where
  first : n.head?.any isNameStart = true
  all : ∀ c ∈ n, isNameChar c = true

/-- The fixed part of a line is as it has to be within `top`: its names are names, an end tag fits,
and text that a tag cuts short does not mean what the whole text is to mean. -/
def Line.Layout : Line → Text → Prop
  | text _ name raw meaning, _ => IsName name ∧
      ∀ a b, raw = a ++ '<' :: b → textValue a ≠ some meaning
  | start _ name attrs, _ => IsName name ∧ (∀ a ∈ attrs, IsName a.1) ∧ (attrs.map Prod.fst).Nodup
  | empty _ name attrs, _ => IsName name ∧ (∀ a ∈ attrs, IsName a.1) ∧ (attrs.map Prod.fst).Nodup
  | stop _ name, top => IsName name ∧ name = top

/-- The strings in a line are plain for their place. -/
def Line.Sound : Line → Prop
  | text _ _ raw meaning => '<' ∉ raw ∧ textValue raw = some meaning
  | start _ _ attrs => ∀ a ∈ attrs, AttrPlain a.2
  | empty _ _ attrs => ∀ a ∈ attrs, AttrPlain a.2
  | stop .. => True

/-! ## Tags of a line -/

theorem IsName.takeWhile {n : Text} (h : IsName n) {c : Char} (hc : isNameChar c = false)
    (rest : Text) : (n ++ c :: rest).takeWhile isNameChar = n := by
  rw [List.takeWhile_append_of_pos h.all, List.takeWhile_cons, hc, if_neg (by simp),
    List.append_nil]

theorem IsName.dropWhile {n : Text} (h : IsName n) {c : Char} (hc : isNameChar c = false)
    (rest : Text) : (n ++ c :: rest).dropWhile isNameChar = c :: rest := by
  rw [List.dropWhile_append_of_pos h.all, List.dropWhile_cons, hc, if_neg (by simp)]

theorem IsName.head {n : Text} (h : IsName n) (rest : Text) :
    ∃ c cs, n ++ rest = c :: cs ∧ isNameStart c = true := by
  cases n with
  | nil => simpa using h.first
  | cons c cs => exact ⟨c, cs ++ rest, rfl, by simpa using h.first⟩

theorem parseTag_stop {name : Text} (h : IsName name) (rest : Text) :
    parseTag ('/' :: (name ++ '>' :: rest)) = some (.stop name, rest) := by
  have hgt : isNameChar '>' = false := by decide
  have hspace : isSpace '>' = false := by decide
  simp only [parseTag, h.dropWhile hgt, h.takeWhile hgt, List.dropWhile_cons, hspace,
    Bool.false_eq_true, if_false]

/-- A start tag is its name and its attributes. -/
theorem parseTag_start {name : Text} (h : IsName name) {c : Char} (hc : isNameChar c = false)
    (rest : Text) : parseTag (name ++ c :: rest) = parseAttrs name [] (c :: rest) := by
  obtain ⟨b, bs, hb, hfirst⟩ := h.head (c :: rest)
  have hslash : b ≠ '/' := by
    rintro rfl
    revert hfirst
    decide
  have htake := h.takeWhile hc rest
  have hdrop := h.dropWhile hc rest
  rw [hb] at htake hdrop ⊢
  unfold parseTag
  split
  · rename_i r heq
    cases heq
    exact absurd rfl hslash
  · rw [if_pos (by simpa using hfirst), htake, hdrop]

/-- The attributes read so far stay in front. -/
def Tag.attrs : Tag → List (Text × Text)
  | start _ attrs => attrs
  | empty _ attrs => attrs
  | stop _ => []

theorem parseAttrs_prefix {name s rest : Text} {acc : List (Text × Text)} {tag : Tag}
    (h : parseAttrs name acc s = some (tag, rest)) : acc <+: tag.attrs := by
  fun_induction parseAttrs name acc s with
  | case1 =>
    cases h
    exact List.prefix_rfl
  | case2 =>
    cases h
    exact List.prefix_rfl
  | case3 => cases h
  | case4 => cases h
  | case5 => cases h
  | case6 acc s a rest' hnew hempty hstart hne hattr ih =>
    exact (List.prefix_append acc [a]).trans (ih h)

theorem parseAttr_eq {a v : Text} (ha : IsName a) (hq : '"' ∉ v) (rest : Text) :
    parseAttr (a ++ '=' :: '"' :: (v ++ '"' :: rest)) =
      (attrValue v).map fun m => ((a, m), rest) := by
  have heq : isNameChar '=' = false := by decide
  have hspace : isSpace '=' = false := by decide
  have hspace' : isSpace '"' = false := by decide
  unfold parseAttr
  simp only [ha.takeWhile heq, ha.dropWhile heq, List.dropWhile_cons, hspace, hspace',
    Bool.false_eq_true, if_false, dropWhile_ne_append hq, takeWhile_ne_append hq]
  rw [if_pos ⟨Or.inl trivial, ha.first⟩]

/-- One more attribute, up to the first quote behind it. -/
theorem parseAttrs_attr {name a v : Text} {acc : List (Text × Text)} (ha : IsName a)
    (hnew : named a acc = false) (hq : '"' ∉ v) (rest : Text) :
    parseAttrs name acc (' ' :: (a ++ '=' :: '"' :: (v ++ '"' :: rest))) =
      (attrValue v).bind fun m => parseAttrs name (acc ++ [(a, m)]) rest := by
  have hattr := parseAttr_eq ha hq rest
  obtain ⟨b, bs, hb, hfirst⟩ := ha.head ('=' :: '"' :: (v ++ '"' :: rest))
  rw [hb] at hattr ⊢
  have hb' : isSpace b = false := by
    cases hs : isSpace b with
    | false => rfl
    | true =>
      simp only [isSpace, Bool.or_eq_true, decide_eq_true_eq] at hs
      rcases hs with ((rfl | rfl) | rfl) | rfl
      all_goals
        revert hfirst
        decide
  have hdrop : (' ' :: b :: bs).dropWhile isSpace = b :: bs := by
    rw [List.dropWhile_cons, if_pos (by decide), List.dropWhile_cons, hb', if_neg (by simp)]
  rw [parseAttrs]
  split
  · rename_i rest' hs
    rw [hdrop] at hs
    cases hs
    exact absurd hfirst (by decide)
  · rename_i rest' hs
    rw [hdrop] at hs
    cases hs
    exact absurd hfirst (by decide)
  · rw [hdrop, if_neg (by intro h; simpa using congrArg List.length h)]
    split
    · rename_i hnone
      rw [hattr] at hnone
      rw [Option.map_eq_none_iff.mp hnone]
      rfl
    · rename_i p rest' hsome
      rw [hattr] at hsome
      obtain ⟨m, hm, hp⟩ := Option.map_eq_some_iff.mp hsome
      cases hp
      rw [hm, hnew, if_neg (by simp)]
      rfl

theorem attrValue_length {raw v : Text} (h : attrValue raw = some v) : v.length ≤ raw.length := by
  unfold attrValue at h
  split at h
  · cases h
  · have := unescape_length h
    omega

theorem attrValue_plain {v : Text} (h : AttrPlain v) : attrValue v = some v := by
  unfold attrValue
  rw [if_neg h.2.1, unescape_plain h.1]

theorem attrValue_self {v : Text} (hq : '"' ∉ v) (h : attrValue v = some v) : AttrPlain v := by
  unfold attrValue at h
  split at h
  · cases h
  · rename_i hlt
    have := unescape_length h
    exact ⟨List.count_eq_zero.mp (by omega), hlt, hq⟩

theorem renderAttrs_cons (a : Text × Text) (attrs : List (Text × Text)) (rest : Text) :
    renderAttrs (a :: attrs) ++ rest =
      ' ' :: (a.1 ++ '=' :: '"' :: (a.2 ++ '"' :: (renderAttrs attrs ++ rest))) := by
  simp [renderAttrs]

theorem named_append {a : Text} {acc : List (Text × Text)} {b : Text × Text}
    (h : named a acc = false) (hne : b.1 ≠ a) : named a (acc ++ [b]) = false := by
  simp only [named, List.any_append, List.any_cons, List.any_nil, Bool.or_false,
    Bool.or_eq_false_iff, decide_eq_false_iff_not]
  exact ⟨h, hne⟩

/-- Attributes that are all plain are read as they are. -/
theorem parseAttrs_plain {name : Text} {attrs acc : List (Text × Text)}
    (hnames : ∀ a ∈ attrs, IsName a.1) (hnodup : (attrs.map Prod.fst).Nodup)
    (hnew : ∀ a ∈ attrs, named a.1 acc = false) (hplain : ∀ a ∈ attrs, AttrPlain a.2)
    (rest : Text) :
    parseAttrs name acc (renderAttrs attrs ++ rest) = parseAttrs name (acc ++ attrs) rest := by
  induction attrs generalizing acc with
  | nil => simp [renderAttrs]
  | cons a attrs ih =>
    have hp := hplain a List.mem_cons_self
    rw [renderAttrs_cons, parseAttrs_attr (hnames a List.mem_cons_self)
      (hnew a List.mem_cons_self) hp.2.2, attrValue_plain hp, Option.bind_some]
    rw [List.map_cons, List.nodup_cons] at hnodup
    rw [ih (fun b hb => hnames b (List.mem_cons_of_mem _ hb)) hnodup.2 ?_
      (fun b hb => hplain b (List.mem_cons_of_mem _ hb)), List.append_assoc]
    · rfl
    · intro b hb
      refine named_append (hnew b (List.mem_cons_of_mem _ hb)) ?_
      rintro hab
      exact hnodup.1 (hab ▸ List.mem_map_of_mem hb)

/-- Attributes that are read as they are meant are all plain. -/
theorem attrPlain_of_parseAttrs {name : Text} {attrs acc more : List (Text × Text)}
    (hnames : ∀ a ∈ attrs, IsName a.1) (hnodup : (attrs.map Prod.fst).Nodup)
    (hnew : ∀ a ∈ attrs, named a.1 acc = false) {rest rest' : Text} {tag : Tag}
    (h : parseAttrs name acc (renderAttrs attrs ++ rest) = some (tag, rest'))
    (htag : tag.attrs = acc ++ attrs ++ more) : ∀ a ∈ attrs, AttrPlain a.2 := by
  induction attrs generalizing acc with
  | nil => simp
  | cons a attrs ih =>
    have hname := hnames a List.mem_cons_self
    have hfresh := hnew a List.mem_cons_self
    rw [renderAttrs_cons] at h
    -- whatever the value is read as, it stays in the attributes of the tag
    have hkept : ∀ {m s : Text}, parseAttrs name (acc ++ [(a.1, m)]) s = some (tag, rest') →
        m = a.2 := by
      intro m s hs
      obtain ⟨t, ht⟩ := parseAttrs_prefix hs
      rw [htag, List.append_assoc, List.append_assoc, List.append_cancel_left_eq] at ht
      have := (List.cons.inj ht).1
      rw [← this]
    by_cases hq : '"' ∈ a.2
    · obtain ⟨u, w, hsplit, hu⟩ := List.eq_append_cons_of_mem hq
      rw [hsplit, List.append_assoc, List.cons_append, parseAttrs_attr hname hfresh hu] at h
      obtain ⟨m, hm, hs⟩ := Option.bind_eq_some_iff.mp h
      have hlen := attrValue_length hm
      rw [hkept hs, hsplit, List.length_append, List.length_cons] at hlen
      omega
    · rw [parseAttrs_attr hname hfresh hq] at h
      obtain ⟨m, hm, hs⟩ := Option.bind_eq_some_iff.mp h
      have hm' := hkept hs
      subst hm'
      rw [List.map_cons, List.nodup_cons] at hnodup
      rw [List.forall_mem_cons]
      refine ⟨attrValue_self hq hm, ih (fun b hb => hnames b (List.mem_cons_of_mem _ hb)) hnodup.2
        ?_ hs (by rw [htag]; simp)⟩
      intro b hb
      refine named_append (hnew b (List.mem_cons_of_mem _ hb)) ?_
      rintro hab
      exact hnodup.1 (hab ▸ List.mem_map_of_mem hb)

/-! ## One line -/

section Content

variable {top : Text} {stack : List Text}

/-- A character that is neither markup nor a bracket is passed on. -/
theorem parseContent_char {c : Char} (hlt : c ≠ '<') (hamp : c ≠ '&') (hbracket : c ≠ ']')
    (rest : Text) :
    parseContent (top :: stack) (c :: rest) =
      (parseContent (top :: stack) rest).map (Event.char c :: ·) := by
  have hpre : cdEnd.isPrefixOf (c :: rest) = false := by
    simp [cdEnd, List.isPrefixOf, Ne.symm hbracket]
  rw [parseContent, if_neg hlt, if_neg hamp, hpre, if_neg (by simp)]

theorem parseContent_spaces (n : Nat) (rest : Text) :
    parseContent (top :: stack) (spaces n ++ rest) =
      (parseContent (top :: stack) rest).map ((spaces n).map Event.char ++ ·) := by
  induction n with
  | zero => simp [spaces]
  | succ n ih =>
    rw [spaces, List.replicate_succ, List.cons_append,
      parseContent_char (by decide) (by decide) (by decide)]
    have ih' : parseContent (top :: stack) (List.replicate n ' ' ++ rest) = _ := ih
    rw [ih', Option.map_map]
    rfl

theorem parseContent_crlf (rest : Text) :
    parseContent (top :: stack) (crlf ++ rest) =
      (parseContent (top :: stack) rest).map (crlf.map Event.char ++ ·) := by
  unfold crlf
  rw [List.cons_append, parseContent_char (by decide) (by decide) (by decide), List.cons_append,
    parseContent_char (by decide) (by decide) (by decide), Option.map_map]
  rfl

theorem parseContent_start {cs name rest : Text} {attrs : List (Text × Text)}
    (h : parseTag cs = some (.start name attrs, rest)) :
    parseContent (top :: stack) ('<' :: cs) =
      (parseContent (name :: top :: stack) rest).map (.start name attrs :: ·) := by
  rw [parseContent, if_pos rfl]
  split <;> simp_all

theorem parseContent_empty {cs name rest : Text} {attrs : List (Text × Text)}
    (h : parseTag cs = some (.empty name attrs, rest)) :
    parseContent (top :: stack) ('<' :: cs) =
      (parseContent (top :: stack) rest).map fun es => .start name attrs :: .stop name :: es := by
  rw [parseContent, if_pos rfl]
  split <;> simp_all

theorem parseContent_stop {cs rest : Text} (h : parseTag cs = some (.stop top, rest)) :
    parseContent (top :: stack) ('<' :: cs) =
      (parseContent stack rest).map (.stop top :: ·) := by
  rw [parseContent, if_pos rfl]
  split <;> simp_all

/-- The first event of a tag is no character, and it tells the attributes of the tag. -/
theorem parseContent_tag {cs : Text} {es : List Event}
    (h : parseContent (top :: stack) ('<' :: cs) = some es) :
    ∃ e es', es = e :: es' ∧ (∀ c, e ≠ .char c) ∧
      ∀ name attrs, e = .start name attrs →
        ∃ tag rest, parseTag cs = some (tag, rest) ∧ tag.attrs = attrs := by
  rw [parseContent, if_pos rfl] at h
  split at h
  · cases h
  · rename_i name attrs rest htag
    obtain ⟨es', -, rfl⟩ := Option.map_eq_some_iff.mp h
    refine ⟨_, _, rfl, by simp, ?_⟩
    rintro n as hev
    cases hev
    exact ⟨_, _, htag, rfl⟩
  · rename_i name attrs rest htag
    obtain ⟨es', -, rfl⟩ := Option.map_eq_some_iff.mp h
    refine ⟨_, _, rfl, by simp, ?_⟩
    rintro n as hev
    cases hev
    exact ⟨_, _, htag, rfl⟩
  · split at h
    · obtain ⟨es', -, rfl⟩ := Option.map_eq_some_iff.mp h
      exact ⟨_, _, rfl, by simp, by simp⟩
    · cases h

theorem parseAttrs_gt (name rest : Text) (acc : List (Text × Text)) :
    parseAttrs name acc ('>' :: rest) = some (.start name acc, rest) := by
  have hdrop : ('>' :: rest).dropWhile isSpace = '>' :: rest := by
    rw [List.dropWhile_cons, if_neg (by decide)]
  rw [parseAttrs]
  split <;> simp_all

theorem parseAttrs_slash (name rest : Text) (acc : List (Text × Text)) :
    parseAttrs name acc (' ' :: '/' :: '>' :: rest) = some (.empty name acc, rest) := by
  have hdrop : (' ' :: '/' :: '>' :: rest).dropWhile isSpace = '/' :: '>' :: rest := by
    rw [List.dropWhile_cons, if_pos (by decide), List.dropWhile_cons, if_neg (by decide)]
  rw [parseAttrs]
  split <;> simp_all

/-- What stands behind the name in a tag does not belong to it. -/
theorem parseTag_attrs {name : Text} (h : IsName name) (attrs : List (Text × Text)) {c : Char}
    (hc : isNameChar c = false) (rest : Text) :
    parseTag (name ++ (renderAttrs attrs ++ c :: rest)) =
      parseAttrs name [] (renderAttrs attrs ++ c :: rest) := by
  cases attrs with
  | nil => exact parseTag_start h hc rest
  | cons a attrs =>
    rw [renderAttrs_cons]
    exact parseTag_start h (by decide) _

/-- A line whose strings are plain is read as it is meant. -/
theorem parse_line {l : Line} {top' : Text} {stack' : List Text} (hl : l.Layout top)
    (hs : l.Sound) (hnest : l.nest top stack = top' :: stack') (rest : Text) :
    parseContent (top :: stack) (l.render ++ rest) =
      (parseContent (top' :: stack') rest).map (l.events ++ ·) := by
  cases l with
  | text n name raw meaning =>
    cases hnest
    obtain ⟨hname, -⟩ := hl
    obtain ⟨hlt, hvalue⟩ := hs
    have hopen : parseTag (name ++ '>' :: (raw ++ '<' :: '/' :: (name ++ '>' :: (crlf ++ rest)))) =
        some (.start name [], _) :=
      (parseTag_start hname (by decide) _).trans (parseAttrs_gt name _ [])
    have hclose : parseTag ('/' :: (name ++ '>' :: (crlf ++ rest))) = some (.stop name, _) :=
      parseTag_stop hname _
    simp only [Line.render, List.append_assoc, List.cons_append]
    rw [parseContent_spaces, parseContent_start hopen, parseContent_text hlt, hvalue,
      Option.bind_some, parseContent_stop hclose, parseContent_crlf]
    simp only [Option.map_map, Line.events, Function.comp_def, List.append_assoc, List.cons_append]
  | start n name attrs =>
    obtain ⟨rfl, rfl⟩ := List.cons.inj hnest
    obtain ⟨hname, hnames, hnodup⟩ := hl
    have hopen : parseTag (name ++ (renderAttrs attrs ++ '>' :: (crlf ++ rest))) =
        some (.start name attrs, crlf ++ rest) := by
      rw [parseTag_attrs hname attrs (by decide),
        parseAttrs_plain hnames hnodup (fun _ _ => rfl) hs, parseAttrs_gt]
      rfl
    simp only [Line.render, List.append_assoc, List.cons_append]
    rw [parseContent_spaces, parseContent_start hopen, parseContent_crlf]
    simp only [Option.map_map, Line.events, Function.comp_def, List.append_assoc, List.cons_append]
  | empty n name attrs =>
    cases hnest
    obtain ⟨hname, hnames, hnodup⟩ := hl
    have hopen : parseTag (name ++ (renderAttrs attrs ++ ' ' :: '/' :: '>' :: (crlf ++ rest))) =
        some (.empty name attrs, crlf ++ rest) := by
      rw [parseTag_attrs hname attrs (by decide),
        parseAttrs_plain hnames hnodup (fun _ _ => rfl) hs, parseAttrs_slash]
      rfl
    simp only [Line.render, List.append_assoc, List.cons_append]
    rw [parseContent_spaces, parseContent_empty hopen, parseContent_crlf]
    simp only [Option.map_map, Line.events, Function.comp_def, List.append_assoc, List.cons_append]
  | stop n name =>
    obtain ⟨hname, rfl⟩ := hl
    have hnest' : stack = top' :: stack' := hnest
    subst hnest'
    have hclose : parseTag ('/' :: (name ++ '>' :: (crlf ++ rest))) = some (.stop name, _) :=
      parseTag_stop hname _
    simp only [Line.render, List.append_assoc, List.cons_append]
    rw [parseContent_spaces, parseContent_stop hclose, parseContent_crlf]
    simp only [Option.map_map, Line.events, Function.comp_def, List.append_assoc, List.cons_append]

theorem map_char_append_cancel {a b : Text} {e : Event} {es es' : List Event}
    (he : ∀ c, e ≠ .char c) {e' : Event} (he' : ∀ c, e' ≠ .char c)
    (h : a.map Event.char ++ e :: es = b.map Event.char ++ e' :: es') : a = b := by
  induction a generalizing b with
  | nil =>
    cases b with
    | nil => rfl
    | cons c cs => exact absurd (List.cons.inj h).1 (he c)
  | cons c cs ih =>
    cases b with
    | nil => exact absurd (List.cons.inj h).1.symm (he' c)
    | cons d ds =>
      obtain ⟨h1, h2⟩ := List.cons.inj h
      cases h1
      rw [ih h2]

/-- The attributes of a line that is read as it is meant are plain. -/
theorem attrs_plain_of_parse {n : Nat} {name rest : Text} {attrs : List (Text × Text)}
    {es : List Event} (hname : IsName name) (hnames : ∀ a ∈ attrs, IsName a.1)
    (hnodup : (attrs.map Prod.fst).Nodup) {c : Char} (hc : isNameChar c = false)
    (h : parseContent (top :: stack) (spaces n ++ '<' :: (name ++ (renderAttrs attrs ++ c :: rest))) =
      some ((spaces n).map .char ++ .start name attrs :: es)) : ∀ a ∈ attrs, AttrPlain a.2 := by
  rw [parseContent_spaces] at h
  obtain ⟨es1, hes1, heq⟩ := Option.map_eq_some_iff.mp h
  rw [List.append_cancel_left_eq] at heq
  subst heq
  obtain ⟨e, es2, heq, -, htag⟩ := parseContent_tag hes1
  obtain ⟨tag, rest', hparse, hattrs⟩ := htag name attrs (List.cons.inj heq).1.symm
  rw [parseTag_attrs hname attrs hc] at hparse
  exact attrPlain_of_parseAttrs hnames hnodup (fun _ _ => rfl) hparse
    (show _ = [] ++ _ ++ [] by simpa using hattrs)

/-- A line that is read as it is meant has plain strings. -/
theorem sound_of_parse {l : Line} (hl : l.Layout top) {rest : Text} {es : List Event}
    (h : parseContent (top :: stack) (l.render ++ rest) = some (l.events ++ es)) : l.Sound := by
  cases l with
  | text n name raw meaning =>
    obtain ⟨hname, htight⟩ := hl
    simp only [Line.render, Line.events, List.append_assoc, List.cons_append] at h
    have hopen : parseTag (name ++ '>' :: (raw ++ '<' :: '/' :: (name ++ '>' :: (crlf ++ rest)))) =
        some (.start name [], _) :=
      (parseTag_start hname (by decide) _).trans (parseAttrs_gt name _ [])
    rw [parseContent_spaces, parseContent_start hopen, Option.map_map] at h
    obtain ⟨es1, hes1, heq⟩ := Option.map_eq_some_iff.mp h
    simp only [Function.comp_def, List.append_cancel_left_eq, List.cons.injEq, true_and] at heq
    subst heq
    -- the characters that are read end at the first tag, wherever it comes from
    have htext : ∀ {a cs : Text}, '<' ∉ a →
        parseContent (name :: top :: stack) (a ++ '<' :: cs) =
          some (meaning.map .char ++ .stop name :: (crlf.map .char ++ es)) →
        textValue a = some meaning := by
      intro a cs ha hparse
      rw [parseContent_text ha] at hparse
      obtain ⟨m, hm, hrest⟩ := Option.bind_eq_some_iff.mp hparse
      obtain ⟨es2, hes2, heq⟩ := Option.map_eq_some_iff.mp hrest
      obtain ⟨e, es3, rfl, hnochar, -⟩ := parseContent_tag hes2
      rw [hm, map_char_append_cancel hnochar (by simp) heq]
    by_cases hlt : '<' ∈ raw
    · obtain ⟨a, b, hsplit, ha⟩ := List.eq_append_cons_of_mem hlt
      rw [hsplit, List.append_assoc, List.cons_append] at hes1
      exact absurd (htext ha hes1) (htight a b hsplit)
    · exact ⟨hlt, htext hlt hes1⟩
  | start n name attrs =>
    obtain ⟨hname, hnames, hnodup⟩ := hl
    simp only [Line.render, Line.events, List.append_assoc, List.cons_append] at h
    exact attrs_plain_of_parse hname hnames hnodup (by decide) h
  | empty n name attrs =>
    obtain ⟨hname, hnames, hnodup⟩ := hl
    simp only [Line.render, Line.events, List.append_assoc, List.cons_append] at h
    exact attrs_plain_of_parse hname hnames hnodup (by decide) h
  | stop n name => trivial

/-! ## Whole documents -/

/-- The lines lead from the open elements `top :: stack` to the open elements `final`. -/
def Laid : List Line → Text → List Text → List Text → Prop
  | [], top, stack, final => top :: stack = final
  | l :: ls, top, stack, final => l.Layout top ∧
      ∃ top' stack', l.nest top stack = top' :: stack' ∧ Laid ls top' stack' final

theorem Laid.append {a b : List Line} {top' : Text} {stack' final : List Text}
    (ha : Laid a top stack (top' :: stack')) (hb : Laid b top' stack' final) :
    Laid (a ++ b) top stack final := by
  induction a generalizing top stack with
  | nil =>
    cases ha
    exact hb
  | cons l ls ih =>
    obtain ⟨hl, t, st, hnest, hls⟩ := ha
    exact ⟨hl, t, st, hnest, ih hls⟩

theorem Laid.flatMap {α : Type} {f : α → List Line} {xs : List α}
    (h : ∀ x ∈ xs, Laid (f x) top stack (top :: stack)) :
    Laid (xs.flatMap f) top stack (top :: stack) := by
  induction xs with
  | nil => rfl
  | cons x xs ih =>
    rw [List.flatMap_cons]
    exact (h x List.mem_cons_self).append (ih fun y hy => h y (List.mem_cons_of_mem _ hy))

/-- The lines are read as they are meant exactly when all their strings are plain. -/
theorem parse_lines_iff {lines : List Line} {root : Text} (hroot : IsName root)
    (h : Laid lines top stack [root]) :
    parseContent (top :: stack)
        (lines.flatMap Line.render ++ '<' :: '/' :: (root ++ '>' :: crlf)) =
      some (lines.flatMap Line.events ++ [.stop root]) ↔ ∀ l ∈ lines, l.Sound := by
  induction lines generalizing top stack with
  | nil =>
    cases h
    have hclose : parseTag ('/' :: (root ++ '>' :: crlf)) = some (.stop root, crlf) :=
      parseTag_stop hroot _
    refine iff_of_true ?_ (by simp)
    rw [List.flatMap_nil, List.nil_append, parseContent_stop hclose, parseContent]
    rfl
  | cons l ls ih =>
    obtain ⟨hl, top', stack', hnest, hls⟩ := h
    rw [List.flatMap_cons, List.flatMap_cons, List.append_assoc, List.append_assoc,
      List.forall_mem_cons, ← ih hls]
    constructor
    · intro hparse
      have hs := sound_of_parse hl hparse
      rw [parse_line hl hs hnest] at hparse
      obtain ⟨es, hes, heq⟩ := Option.map_eq_some_iff.mp hparse
      rw [List.append_cancel_left_eq] at heq
      exact ⟨hs, by rw [hes, heq]⟩
    · rintro ⟨hs, hparse⟩
      rw [parse_line hl hs hnest, hparse]
      rfl

end Content

/-- The document of `lines` within the element `root`, behind a declaration. -/
def document (declaration root : Text) (attrs : List (Text × Text)) (lines : List Line) : Text :=
  '\uFEFF' :: (declaration ++ (crlf ++ ('<' :: (root ++ (renderAttrs attrs ++ '>' :: (crlf ++
    (lines.flatMap Line.render ++ '<' :: '/' :: (root ++ '>' :: crlf))))))))

/-- The events that the document is to have. -/
def documentEvents (root : Text) (attrs : List (Text × Text)) (lines : List Line) : List Event :=
  .start root attrs :: (crlf.map .char ++ (lines.flatMap Line.events ++ [.stop root]))

/-- A declaration is read over. -/
structure IsDeclaration (declaration : Text) : Prop where
  starts : (str "<?xml ").isPrefixOf declaration = true
  ends : ∀ rest, afterDeclaration (declaration ++ rest) = rest

/-- **Printing without escaping.** The document is read as it is meant exactly when it has only
characters that a document may have and all its strings are plain. -/
theorem parseDocument_iff {declaration root : Text} {attrs : List (Text × Text)}
    {lines : List Line} (hdecl : IsDeclaration declaration) (hroot : IsName root)
    (hnames : ∀ a ∈ attrs, IsName a.1) (hnodup : (attrs.map Prod.fst).Nodup)
    (hplain : ∀ a ∈ attrs, AttrPlain a.2) (hlines : Laid lines root [] [root]) :
    parseDocument (document declaration root attrs lines) =
        some (documentEvents root attrs lines) ↔
      (document declaration root attrs lines).all isChar = true ∧ ∀ l ∈ lines, l.Sound := by
  have hstrip : (stripProlog (document declaration root attrs lines)).dropWhile isSpace =
      '<' :: (root ++ (renderAttrs attrs ++ '>' :: (crlf ++
        (lines.flatMap Line.render ++ '<' :: '/' :: (root ++ '>' :: crlf))))) := by
    have hpre : ∀ rest, (str "<?xml ").isPrefixOf (declaration ++ rest) = true := by
      intro rest
      exact List.isPrefixOf_iff_prefix.mpr
        ((List.isPrefixOf_iff_prefix.mp hdecl.starts).trans (List.prefix_append _ _))
    unfold stripProlog document
    simp only [List.head?_cons, if_true, List.tail_cons, hpre, hdecl.ends]
    rfl
  have hopen : parseTag (root ++ (renderAttrs attrs ++ '>' :: (crlf ++
      (lines.flatMap Line.render ++ '<' :: '/' :: (root ++ '>' :: crlf))))) =
        some (.start root attrs, crlf ++
          (lines.flatMap Line.render ++ '<' :: '/' :: (root ++ '>' :: crlf))) := by
    rw [parseTag_attrs hroot attrs (by decide),
      parseAttrs_plain hnames hnodup (fun _ _ => rfl) hplain, parseAttrs_gt]
    rfl
  unfold parseDocument
  rw [hstrip]
  simp only [hopen]
  by_cases hchars : (document declaration root attrs lines).all isChar = true
  · rw [if_pos hchars, parseContent_crlf, Option.map_map, documentEvents,
      ← parse_lines_iff hroot hlines]
    constructor
    · intro h
      obtain ⟨es, hes, heq⟩ := Option.map_eq_some_iff.mp h
      simp only [Function.comp_def, List.cons.injEq, true_and, List.append_cancel_left_eq] at heq
      exact ⟨hchars, by rw [hes, heq]⟩
    · rintro ⟨-, h⟩
      rw [h]
      rfl
  · rw [if_neg hchars]
    exact iff_of_false (by simp) fun h => hchars h.1

end Xml
