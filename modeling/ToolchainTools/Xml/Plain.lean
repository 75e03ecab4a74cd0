import ToolchainTools.Xml.Lines

/-!
# Strings that need no escaping

What is printed into a document is put together from several strings and fixed text
between them. A string fits its place when it means itself there and has only characters
that a document may have. An ordinary character between two strings keeps them apart
(`fitText_append_cons`), so the whole text fits when every string does. Text with an
escaped `&&` in it means what it is to mean when both sides fit (`fit_and_iff`).
-/

namespace Xml

/-- All characters are characters that a document may have. -/
def Clean (s : Text) : Prop := ∀ c ∈ s, isChar c = true

instance (s : Text) : Decidable (Clean s) :=
  inferInstanceAs (Decidable (∀ c ∈ s, isChar c = true))

theorem clean_append (a b : Text) : Clean (a ++ b) ↔ Clean a ∧ Clean b := by
  simp only [Clean, List.mem_append, or_imp, forall_and]

theorem clean_cons {c : Char} (h : isChar c = true) (s : Text) : Clean (c :: s) ↔ Clean s := by
  simp only [Clean, List.forall_mem_cons, h, true_and]

/-- Fit to stand between two tags. -/
def FitText (s : Text) : Prop := TextPlain s ∧ Clean s

/-- Fit to stand in an attribute. -/
def FitAttr (s : Text) : Prop := AttrPlain s ∧ Clean s

instance (s : Text) : Decidable (FitText s) :=
  inferInstanceAs (Decidable (('&' ∉ s ∧ '<' ∉ s ∧ ¬ cdEnd <:+: s) ∧ Clean s))

instance (s : Text) : Decidable (FitAttr s) :=
  inferInstanceAs (Decidable (('&' ∉ s ∧ '<' ∉ s ∧ '"' ∉ s) ∧ Clean s))

/-- A character without a meaning of its own, in any place. -/
def Ordinary (c : Char) : Bool :=
  isChar c && (c ≠ '&' && c ≠ '<' && c ≠ '"' && c ≠ ']' && c ≠ '>')

/-! ## Strings and what stands between them -/

theorem cdEnd_infix_append_cons {c : Char} (h1 : c ≠ ']') (h2 : c ≠ '>') (a b : Text) :
    cdEnd <:+: a ++ c :: b ↔ cdEnd <:+: a ∨ cdEnd <:+: b := by
  induction a with
  | nil =>
    have hnil : ¬ cdEnd <:+: [] := by simp [cdEnd]
    have hpre : ¬ cdEnd <+: c :: b := by simp [cdEnd, Ne.symm h1]
    rw [List.nil_append, List.infix_cons_iff, or_iff_right hpre, or_iff_right hnil]
  | cons x xs ih =>
    -- the end cannot reach over the character
    have hpre : cdEnd <+: x :: (xs ++ c :: b) ↔ cdEnd <+: x :: xs := by
      rcases xs with _ | ⟨y, _ | ⟨z, zs⟩⟩
      · simp [cdEnd, Ne.symm h1]
      · simp [cdEnd, Ne.symm h2]
      · simp [cdEnd]
    rw [List.cons_append, List.infix_cons_iff, List.infix_cons_iff, hpre, ih, or_assoc]

theorem fitText_append_cons {c : Char} (h : Ordinary c = true) (a b : Text) :
    FitText (a ++ c :: b) ↔ FitText a ∧ FitText b := by
  simp only [Ordinary, Bool.and_eq_true, decide_eq_true_eq] at h
  obtain ⟨hchar, ⟨⟨⟨hamp, hlt⟩, -⟩, hend⟩, hgt⟩ := h
  unfold FitText TextPlain
  rw [cdEnd_infix_append_cons hend hgt, clean_append, clean_cons hchar]
  simp only [List.mem_append, List.mem_cons, Ne.symm hamp, Ne.symm hlt, false_or, not_or]
  tauto

theorem fitText_nil : FitText [] := by
  simp [FitText, TextPlain, cdEnd, Clean]

theorem fitText_cons {c : Char} (h : Ordinary c = true) (b : Text) :
    FitText (c :: b) ↔ FitText b := by
  rw [← List.nil_append (c :: b), fitText_append_cons h]
  exact and_iff_right fitText_nil

/-- Fixed text in front changes nothing. -/
theorem fitText_fixed_append {sep : Text} (h : sep.all Ordinary = true) (b : Text) :
    FitText (sep ++ b) ↔ FitText b := by
  induction sep with
  | nil => rfl
  | cons c cs ih =>
    rw [List.all_cons, Bool.and_eq_true] at h
    rw [List.cons_append, fitText_cons h.1, ih h.2]

theorem fitText_fixed {sep : Text} (h : sep.all Ordinary = true) : FitText sep := by
  rw [← List.append_nil sep, fitText_fixed_append h]
  exact fitText_nil

/-- Fixed text between two strings keeps them apart. -/
theorem fitText_append_fixed {sep : Text} (hne : sep ≠ []) (h : sep.all Ordinary = true)
    (a b : Text) : FitText (a ++ (sep ++ b)) ↔ FitText a ∧ FitText b := by
  cases sep with
  | nil => exact absurd rfl hne
  | cons c cs =>
    rw [List.all_cons, Bool.and_eq_true] at h
    rw [List.cons_append, fitText_append_cons h.1, fitText_fixed_append h.2]

theorem fitText_flatMap {α : Type} {f : α → Text} {g : α → Text} {sep : Text} (hne : sep ≠ [])
    (h : sep.all Ordinary = true) (hf : ∀ x, f x = sep ++ g x) (a : Text) (xs : List α) :
    FitText (a ++ xs.flatMap f) ↔ FitText a ∧ ∀ x ∈ xs, FitText (g x) := by
  induction xs generalizing a with
  | nil => simp
  | cons x xs ih =>
    rw [List.flatMap_cons, hf, List.append_assoc, fitText_append_fixed hne h, ih,
      List.forall_mem_cons]

theorem fitAttr_append (a b : Text) : FitAttr (a ++ b) ↔ FitAttr a ∧ FitAttr b := by
  unfold FitAttr AttrPlain
  rw [clean_append]
  simp only [List.mem_append, not_or]
  tauto

theorem fitAttr_fixed {sep : Text} (h : sep.all Ordinary = true) : FitAttr sep := by
  have hall : ∀ c ∈ sep, Ordinary c = true := List.all_eq_true.mp h
  have hnot : ∀ c, Ordinary c = false → c ∉ sep := by
    intro c hc hmem
    rw [hall c hmem] at hc
    cases hc
  refine ⟨⟨hnot _ (by decide), hnot _ (by decide), hnot _ (by decide)⟩, ?_⟩
  intro c hc
  have := hall c hc
  simp only [Ordinary, Bool.and_eq_true] at this
  exact this.1

theorem fitAttr_fixed_append {sep : Text} (h : sep.all Ordinary = true) (b : Text) :
    FitAttr (sep ++ b) ↔ FitAttr b := by
  rw [fitAttr_append]
  exact and_iff_right (fitAttr_fixed h)

/-- Replacing ordinary characters by ordinary ones. -/
theorem fitText_map {f : Char → Char} (hf : ∀ c, f c = c ∨ (Ordinary c = true ∧ Ordinary (f c) = true))
    (s : Text) : FitText (s.map f) ↔ FitText s := by
  have hsame : ∀ c d, Ordinary d = false → (f c = d ↔ c = d) := by
    intro c d hd
    rcases hf c with hc | ⟨hc, hfc⟩
    · rw [hc]
    · constructor
      · rintro rfl
        rw [hfc] at hd
        cases hd
      · rintro rfl
        rw [hc] at hd
        cases hd
  have hmem : ∀ d, Ordinary d = false → (d ∈ s.map f ↔ d ∈ s) := by
    intro d hd
    simp only [List.mem_map, hsame _ d hd, exists_eq_right]
  have hchar : ∀ c, isChar (f c) = isChar c := by
    intro c
    rcases hf c with hc | ⟨hc, hfc⟩
    · rw [hc]
    · simp only [Ordinary, Bool.and_eq_true] at hc hfc
      rw [hc.1, hfc.1]
  have hpre : ∀ t : Text, cdEnd <+: t.map f ↔ cdEnd <+: t := by
    intro t
    match t with
    | [] => simp
    | [x] => simp [cdEnd]
    | [x, y] => simp [cdEnd]
    | x :: y :: z :: zs =>
      simp only [cdEnd, List.map_cons, List.cons_prefix_cons, List.nil_prefix, and_true]
      rw [eq_comm, hsame x _ (by decide), eq_comm (a := ']') (b := f y), hsame y _ (by decide),
        eq_comm (a := '>'), hsame z _ (by decide)]
      tauto
  have hinf : cdEnd <:+: s.map f ↔ cdEnd <:+: s := by
    clear hmem
    induction s with
    | nil => rfl
    | cons x xs ih => rw [List.map_cons, List.infix_cons_iff, ← List.map_cons, hpre, ih,
        List.infix_cons_iff]
  unfold FitText TextPlain
  rw [hmem _ (by decide), hmem _ (by decide), hinf]
  simp only [Clean, List.forall_mem_map, hchar]

/-! ## Lines that fit -/

/-- A line is sound and has only characters that a document may have. -/
def Line.Fit (l : Line) : Prop := l.Sound ∧ Clean l.render

theorem clean_spaces (n : Nat) : Clean (spaces n) := by
  intro c hc
  rw [List.eq_of_mem_replicate hc]
  decide

theorem clean_crlf : Clean crlf := by
  intro c hc
  rcases List.mem_cons.mp hc with rfl | hc
  · decide
  · rw [List.mem_singleton.mp hc]
    decide

theorem clean_text_iff {n : Nat} {name raw meaning : Text} (hname : Clean name) :
    Clean (Line.text n name raw meaning).render ↔ Clean raw := by
  have hlt : isChar '<' = true := by decide
  have hgt : isChar '>' = true := by decide
  have hslash : isChar '/' = true := by decide
  simp only [Line.render, clean_append, clean_cons hlt, clean_cons hgt, clean_cons hslash,
    clean_spaces, clean_crlf, hname, true_and, and_true]

theorem fit_text_iff {n : Nat} {name s : Text} (hname : Clean name) :
    (Line.text n name s s).Fit ↔ FitText s := by
  unfold Line.Fit FitText TextPlain
  rw [clean_text_iff hname]
  simp only [Line.Sound, textValue_self_iff]
  tauto

theorem clean_renderAttrs {attrs : List (Text × Text)} (h : ∀ a ∈ attrs, Clean a.1) :
    Clean (renderAttrs attrs) ↔ ∀ a ∈ attrs, Clean a.2 := by
  have hspace : isChar ' ' = true := by decide
  have heq : isChar '=' = true := by decide
  have hquote : isChar '"' = true := by decide
  induction attrs with
  | nil => simp [renderAttrs, Clean]
  | cons a attrs ih =>
    rw [List.forall_mem_cons] at h
    rw [← List.append_nil (renderAttrs (a :: attrs)), renderAttrs_cons, List.forall_mem_cons]
    simp only [List.append_nil, clean_append, clean_cons hspace, clean_cons heq,
      clean_cons hquote, h.1, ih h.2, true_and]

theorem fitAttrs_iff {attrs : List (Text × Text)} (h : ∀ a ∈ attrs, Clean a.1) :
    ((∀ a ∈ attrs, AttrPlain a.2) ∧ Clean (renderAttrs attrs)) ↔ ∀ a ∈ attrs, FitAttr a.2 := by
  rw [clean_renderAttrs h]
  unfold FitAttr
  constructor
  · rintro ⟨h1, h2⟩ a ha
    exact ⟨h1 a ha, h2 a ha⟩
  · intro hall
    exact ⟨fun a ha => (hall a ha).1, fun a ha => (hall a ha).2⟩

theorem fit_start_iff {n : Nat} {name : Text} {attrs : List (Text × Text)} (hname : Clean name)
    (h : ∀ a ∈ attrs, Clean a.1) :
    (Line.start n name attrs).Fit ↔ ∀ a ∈ attrs, FitAttr a.2 := by
  have hlt : isChar '<' = true := by decide
  have hgt : isChar '>' = true := by decide
  rw [← fitAttrs_iff h]
  simp only [Line.Fit, Line.Sound, Line.render, clean_append, clean_cons hlt, clean_cons hgt,
    clean_spaces, clean_crlf, hname, true_and, and_true]

theorem fit_empty_iff {n : Nat} {name : Text} {attrs : List (Text × Text)} (hname : Clean name)
    (h : ∀ a ∈ attrs, Clean a.1) :
    (Line.empty n name attrs).Fit ↔ ∀ a ∈ attrs, FitAttr a.2 := by
  have hlt : isChar '<' = true := by decide
  have hgt : isChar '>' = true := by decide
  have hspace : isChar ' ' = true := by decide
  have hslash : isChar '/' = true := by decide
  rw [← fitAttrs_iff h]
  simp only [Line.Fit, Line.Sound, Line.render, clean_append, clean_cons hlt, clean_cons hgt,
    clean_cons hspace, clean_cons hslash, clean_spaces, clean_crlf, hname, true_and, and_true]

theorem fit_stop {n : Nat} {name : Text} (hname : Clean name) : (Line.stop n name).Fit := by
  have hlt : isChar '<' = true := by decide
  have hgt : isChar '>' = true := by decide
  have hslash : isChar '/' = true := by decide
  simp only [Line.Fit, Line.Sound, Line.render, clean_append, clean_cons hlt, clean_cons hgt,
    clean_cons hslash, clean_spaces, clean_crlf, hname, true_and]

/-! ## Two strings with an escaped `&&` between them -/

/-- The escaped `&&`. -/
def escapedAnd : Text := str " &amp;&amp; "

theorem textValue_append_space {s : Text} (hamp : '&' ∉ s) (t : Text) :
    textValue (s ++ ' ' :: t) =
      if cdEnd <:+: s then none else (textValue t).map fun m => s ++ ' ' :: m := by
  induction s with
  | nil =>
    have hnil : ¬ cdEnd <:+: [] := by simp [cdEnd]
    have hpre : cdEnd.isPrefixOf (' ' :: t) = false := by simp [cdEnd, List.isPrefixOf]
    rw [List.nil_append, textValue, if_neg (by decide), hpre, if_neg (by simp), if_neg hnil]
    rfl
  | cons x xs ih =>
    simp only [List.mem_cons, not_or] at hamp
    have hpre : cdEnd.isPrefixOf (x :: (xs ++ ' ' :: t)) = cdEnd.isPrefixOf (x :: xs) := by
      rcases xs with _ | ⟨y, _ | ⟨z, zs⟩⟩
      · simp [cdEnd, List.isPrefixOf]
      · simp [cdEnd, List.isPrefixOf]
      · simp [cdEnd, List.isPrefixOf]
    rw [List.cons_append, textValue, if_neg (Ne.symm hamp.1), hpre, ih hamp.2]
    by_cases hstart : cdEnd.isPrefixOf (x :: xs) = true
    · rw [if_pos hstart,
        if_pos (List.infix_cons_iff.mpr (Or.inl (List.isPrefixOf_iff_prefix.mp hstart)))]
    · have hiff : cdEnd <:+: x :: xs ↔ cdEnd <:+: xs := by
        rw [List.infix_cons_iff, ← List.isPrefixOf_iff_prefix, or_iff_right hstart]
      rw [if_neg hstart]
      by_cases hend : cdEnd <:+: xs
      · rw [if_pos hend, if_pos (hiff.mpr hend)]
        rfl
      · rw [if_neg hend, if_neg (mt hiff.mp hend), Option.map_map]
        rfl

theorem textValue_amp (t : Text) :
    textValue ('&' :: 'a' :: 'm' :: 'p' :: ';' :: t) = (textValue t).map ('&' :: ·) := by
  have href : reference ('a' :: 'm' :: 'p' :: ';' :: t) = some ('&', t) := by
    simp [reference, entityValue, str]
  rw [textValue, if_pos rfl]
  split
  · rename_i hnone
    rw [href] at hnone
    cases hnone
  · rename_i v rest hsome
    rw [href] at hsome
    cases hsome
    rfl

theorem textValue_escapedAnd {left : Text} (hamp : '&' ∉ left) (right : Text) :
    textValue (left ++ (escapedAnd ++ right)) =
      if cdEnd <:+: left then none
      else (textValue right).map fun m => left ++ (str " && " ++ m) := by
  have hsplit : escapedAnd ++ right = ' ' :: '&' :: 'a' :: 'm' :: 'p' :: ';' :: '&' :: 'a' ::
      'm' :: 'p' :: ';' :: ([] ++ ' ' :: right) := by simp [escapedAnd, str]
  have hnil : ¬ cdEnd <:+: [] := by simp [cdEnd]
  rw [hsplit, textValue_append_space hamp, textValue_amp, textValue_amp,
    textValue_append_space (by simp), if_neg hnil]
  simp [Option.map_map, Function.comp_def, str]

/-- No reference but those of the escaped `&&` is left for either side. -/
theorem no_amp_of_textValue {left right m : Text}
    (h : textValue (left ++ (escapedAnd ++ right)) = some m)
    (hlen : left.length + right.length + 4 ≤ m.length) : '&' ∉ left ∧ '&' ∉ right := by
  have hcount := textValue_length h
  have h1 : escapedAnd.length = 12 := by decide
  have h2 : escapedAnd.count '&' = 2 := by decide
  simp only [List.length_append, List.count_append, h1, h2] at hcount
  constructor
  · exact List.count_eq_zero.mp (by omega)
  · exact List.count_eq_zero.mp (by omega)

theorem layout_and {n : Nat} {name top : Text} (hname : IsName name) (left right : Text) :
    (Line.text n name (left ++ (escapedAnd ++ right)) (left ++ (str " && " ++ right))).Layout
      top := by
  refine ⟨hname, ?_⟩
  intro a b hsplit hvalue
  have hand : (str " && ").length = 4 := by decide
  have hlt : '<' ∉ escapedAnd := by decide
  have hlen := textValue_length hvalue
  simp only [List.length_append, hand] at hlen
  have hright : ∀ d, right = d ++ '<' :: b → a = left ++ (escapedAnd ++ d) → False := by
    rintro d rfl rfl
    obtain ⟨hleft, -⟩ := no_amp_of_textValue hvalue
      (by simp only [List.length_append, List.length_cons, hand]; omega)
    rw [textValue_escapedAnd hleft] at hvalue
    split at hvalue
    · cases hvalue
    · obtain ⟨m, hm, heq⟩ := Option.map_eq_some_iff.mp hvalue
      rw [List.append_cancel_left_eq, List.append_cancel_left_eq] at heq
      have := textValue_length hm
      simp only [heq, List.length_append, List.length_cons] at this
      omega
  -- the tag stands on the right side, or the text in front of it is too short
  rcases List.append_eq_append_iff.mp hsplit with ⟨c, rfl, hc⟩ | ⟨c, rfl, -⟩
  · rcases List.append_eq_append_iff.mp hc with ⟨d, rfl, hd⟩ | ⟨d, hd, hd'⟩
    · exact hright d hd rfl
    · cases d with
      | nil =>
        rw [List.append_nil] at hd
        exact hright [] hd'.symm (by rw [hd, List.append_nil])
      | cons x xs =>
        rw [List.cons_append, List.cons.injEq] at hd'
        exact hlt (by rw [hd, hd'.1]; simp)
  · simp only [List.length_append] at hlen
    omega

theorem fit_and_iff {n : Nat} {name : Text} (hname : Clean name) (left right : Text) :
    (Line.text n name (left ++ (escapedAnd ++ right)) (left ++ (str " && " ++ right))).Fit ↔
      FitText left ∧ FitText right := by
  have hand : (str " && ").length = 4 := by decide
  have hlt : '<' ∉ escapedAnd := by decide
  have hclean : Clean escapedAnd := by simp [Clean, escapedAnd, str, isChar]
  unfold Line.Fit FitText TextPlain
  rw [clean_text_iff hname, clean_append, clean_append]
  simp only [Line.Sound, List.mem_append, not_or, hlt, hclean, not_false_eq_true, true_and]
  constructor
  · rintro ⟨⟨⟨hltl, hltr⟩, hvalue⟩, hcleanl, hcleanr⟩
    obtain ⟨hampl, hampr⟩ := no_amp_of_textValue hvalue
      (by simp only [List.length_append, hand]; omega)
    rw [textValue_escapedAnd hampl] at hvalue
    split at hvalue
    · cases hvalue
    · rename_i hend
      obtain ⟨m, hm, -⟩ := Option.map_eq_some_iff.mp hvalue
      exact ⟨⟨⟨hampl, hltl, hend⟩, hcleanl⟩, ⟨hampr, hltr, not_cdEnd_of_textValue hampr hm⟩, hcleanr⟩
  · rintro ⟨⟨⟨hampl, hltl, hendl⟩, hcleanl⟩, ⟨hampr, hltr, hendr⟩, hcleanr⟩
    rw [textValue_escapedAnd hampl, if_neg hendl, textValue_plain hampr hendr]
    exact ⟨⟨⟨hltl, hltr⟩, rfl⟩, hcleanl, hcleanr⟩

/-! ## Layout -/

theorem layout_text {n : Nat} {name top : Text} (hname : IsName name) (s : Text) :
    (Line.text n name s s).Layout top := by
  refine ⟨hname, ?_⟩
  intro a b hsplit hvalue
  have hlen := textValue_length hvalue
  rw [hsplit, List.length_append, List.length_cons] at hlen
  omega

/-- **Documents of lines.** The document is read as it is meant exactly when all its lines fit. -/
theorem parseDocument_fit_iff {declaration root : Text} {attrs : List (Text × Text)}
    {lines : List Line} (hdecl : IsDeclaration declaration) (hroot : IsName root)
    (hnames : ∀ a ∈ attrs, IsName a.1) (hnodup : (attrs.map Prod.fst).Nodup)
    (hcdecl : Clean declaration) (hcroot : Clean root) (hcnames : ∀ a ∈ attrs, Clean a.1)
    (hattrs : ∀ a ∈ attrs, FitAttr a.2) (hlines : Laid lines root [] [root]) :
    parseDocument (document declaration root attrs lines) =
        some (documentEvents root attrs lines) ↔ ∀ l ∈ lines, l.Fit := by
  have hmark : isChar '\uFEFF' = true := by decide
  have hlt : isChar '<' = true := by decide
  have hgt : isChar '>' = true := by decide
  have hslash : isChar '/' = true := by decide
  have hcattrs := (clean_renderAttrs hcnames).mpr fun a ha => (hattrs a ha).2
  have hbody : Clean (lines.flatMap Line.render) ↔ ∀ l ∈ lines, Clean l.render := by
    simp only [Clean, List.mem_flatMap, forall_exists_index, and_imp]
    exact forall_comm.trans (forall_congr' fun l => forall_comm)
  have hclean : (document declaration root attrs lines).all isChar = true ↔
      ∀ l ∈ lines, Clean l.render := by
    rw [List.all_eq_true, ← hbody]
    change Clean (document declaration root attrs lines) ↔ _
    simp only [document, clean_append, clean_cons hmark, clean_cons hlt, clean_cons hgt,
      clean_cons hslash, clean_crlf, hcdecl, hcroot, hcattrs, true_and, and_true]
  rw [parseDocument_iff hdecl hroot hnames hnodup (fun a ha => (hattrs a ha).1) hlines, hclean]
  constructor
  · rintro ⟨h1, h2⟩ l hl
    exact ⟨h2 l hl, h1 l hl⟩
  · intro h
    exact ⟨fun l hl => (h l hl).2, fun l hl => (h l hl).1⟩

end Xml
