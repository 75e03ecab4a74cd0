import ToolchainTools.CLib.CommandLine

/-!
# Starting ninja (`run_ninja` in `tools/download/download.c`, Windows)

The arguments are joined to one line in a buffer of 4096 bytes, the ones with a space in
quotes. The line is cut where the buffer is full. `Quotable` says which arguments the
program that is started gets back from it. That nothing else will do is shown by counting:
the scanner loses the blank behind each argument and the quotes around some, so it must not
lose anything else.
-/

namespace ToolchainTools

open CLib

/-! ## The code -/

/-- The characters that fit into the buffer. -/
def lineMax : Nat := 4095

/-- `strncat(buf, s, sizeof(buf) - strlen(buf) - 1)`. -/
def appendTo (buf s : Bytes) : Bytes := buf ++ s.take (4096 - buf.length - 1)

/-- One round of the loop. -/
def appendArg (buf arg : Bytes) : Bytes :=
  let haveSpace := (strchr arg space).isSome
  let buf := if haveSpace then appendTo buf [quote] else buf
  let buf := appendTo buf arg
  if haveSpace then appendTo buf [quote, space] else appendTo buf [space]

def ninjaLine (argv : List Bytes) : Bytes := argv.foldl appendArg []

inductive Launch where
  | started (line : Bytes)
  | exited (code : Nat)
  deriving DecidableEq

/-- `run_ninja`, where `created` is what `CreateProcessA` answers. -/
def runNinja (created : Bool) (argv : List Bytes) : Launch :=
  if created then .started (ninjaLine argv) else .exited 6

/-! ## The line -/

/-- What an argument becomes in the line. -/
def piece (a : Bytes) : Bytes :=
  if space ∈ a then quote :: (a ++ [quote, space]) else a ++ [space]

def pieceLength (a : Bytes) : Nat := a.length + if space ∈ a then 3 else 1

theorem length_piece (a : Bytes) : (piece a).length = pieceLength a := by
  unfold piece pieceLength
  split <;> simp

theorem length_pieces (as : List Bytes) :
    (as.flatMap piece).length = (as.map pieceLength).sum := by
  rw [List.length_flatMap]
  simp only [length_piece]

theorem strchr_isSome (s : Bytes) (c : UInt8) : (strchr s c).isSome = decide (c ∈ s) := by
  induction s with
  | nil => rfl
  | cons x xs ih =>
    rw [strchr]
    by_cases h : x = c
    · simp [h]
    · rw [if_neg h, ih]
      simp [Ne.symm h]

theorem appendTo_take (full s : Bytes) :
    appendTo (full.take lineMax) s = (full ++ s).take lineMax := by
  unfold appendTo lineMax
  rw [List.take_append, List.length_take]
  congr 2
  omega

theorem appendArg_take (full arg : Bytes) :
    appendArg (full.take lineMax) arg = (full ++ piece arg).take lineMax := by
  unfold appendArg piece
  simp only [strchr_isSome, decide_eq_true_eq]
  by_cases h : space ∈ arg
  · simp only [if_pos h, appendTo_take]
    simp
  · simp only [if_neg h, appendTo_take, List.append_assoc]

theorem foldl_appendArg (argv : List Bytes) (full : Bytes) :
    argv.foldl appendArg (full.take lineMax) = (full ++ argv.flatMap piece).take lineMax := by
  induction argv generalizing full with
  | nil => simp
  | cons a as ih => rw [List.foldl_cons, appendArg_take, ih, List.flatMap_cons, List.append_assoc]

theorem ninjaLine_eq (argv : List Bytes) : ninjaLine argv = (argv.flatMap piece).take lineMax :=
  foldl_appendArg argv []

/-! ## What comes back -/

/-- The arguments that come back from the line, all of them as they were. -/
structure Quotable (argv : List Bytes) : Prop where
  nonempty : argv ≠ []
  filled : ∀ a ∈ argv.tail, a ≠ []
  quotes : ∀ a ∈ argv, quote ∉ a
  tabs : ∀ a ∈ argv, tab ∈ a → space ∈ a
  /-- A backslash does not get in front of the closing quote, unless that is cut off. -/
  slashes : ∀ front a back, argv = front ++ a :: back → space ∈ a → a.getLast? = some escape →
    back = [] ∧ lineMax ≤ (front.map pieceLength).sum + a.length + 1
  /-- At most the blank and the closing quote behind the last argument are cut off. -/
  fits : ∀ front a, argv = front ++ [a] →
    (front.map pieceLength).sum + a.length + (if space ∈ a then 1 else 0) ≤ lineMax

variable {st : Scan} {a : Bytes} {argv : List Bytes}

/-- The arguments that one piece gives. -/
def yield (st : Scan) (a : Bytes) : List Bytes :=
  if space ∈ a then [a] else scan st (a ++ [space])

def yields : Scan → List Bytes → List Bytes
  | _, [] => []
  | st, a :: as => yield st a ++ yields .between as

theorem ne_nil_of_space (h : space ∈ a) : a ≠ [] := List.ne_nil_of_mem h

theorem scan_piece (h : st.Fresh) (hquote : quote ∉ a)
    (hend : space ∈ a → a.getLast? ≠ some escape) (rest : Bytes) :
    scan st (piece a ++ rest) = yield st a ++ scan .between rest := by
  unfold piece yield
  split
  · rename_i hs
    have := (scan_quoted h (ne_nil_of_space hs) hquote (hend hs) rest).1
    simpa using this
  · rw [List.append_assoc]
    exact (scan_unquoted h.unquoted hquote).1 rest

/-- What is left of the last piece. -/
theorem scan_cut (h : st.Fresh) (hquote : quote ∉ a) {k : Nat}
    (hlong : a.length + (if space ∈ a then 1 else 0) ≤ k)
    (hend : space ∈ a → a.getLast? = some escape → k ≤ a.length + 1) :
    scan st ((piece a).take k) = yield st a := by
  unfold piece yield
  split
  · rename_i hs
    rw [if_pos hs] at hlong
    obtain ⟨k, rfl⟩ : ∃ k', k = a.length + 1 + k' := ⟨k - (a.length + 1), by omega⟩
    have htake : (quote :: (a ++ [quote, space])).take (a.length + 1 + k) =
        quote :: (a ++ [quote, space].take k) := by
      rw [Nat.add_right_comm, List.take_succ_cons, List.take_length_add_append]
    rw [htake]
    match k with
    | 0 =>
      rw [List.take_zero, List.append_nil]
      exact scan_unclosed h hquote
    | 1 =>
      have hlast : a.getLast? ≠ some escape := fun he => by
        have := hend hs he
        omega
      exact (scan_quoted h (ne_nil_of_space hs) hquote hlast []).2
    | k + 2 =>
      have hlast : a.getLast? ≠ some escape := fun he => by
        have := hend hs he
        omega
      rw [List.take_of_length_le (by simp)]
      exact (scan_quoted h (ne_nil_of_space hs) hquote hlast []).1
  · rename_i hs
    obtain ⟨-, hclosed, -⟩ := scan_unquoted h.unquoted hquote
    rw [if_neg hs] at hlong
    rcases Nat.lt_or_ge a.length k with hk | hk
    · rw [List.take_of_length_le (by rw [List.length_append, List.length_singleton]; omega)]
    · rw [List.take_append_of_le_length hk, List.take_of_length_le hlong, hclosed]

/-- The line gives what its pieces give. -/
theorem scan_ninjaLine {front : List Bytes} (h : st.Fresh)
    (hquotes : ∀ b ∈ front ++ [a], quote ∉ b)
    (hslashes : ∀ b ∈ front, space ∈ b → b.getLast? ≠ some escape) {k : Nat}
    (hlong : a.length + (if space ∈ a then 1 else 0) ≤ k)
    (hend : space ∈ a → a.getLast? = some escape → k ≤ a.length + 1) :
    scan st (front.flatMap piece ++ (piece a).take k) = yields st (front ++ [a]) := by
  induction front generalizing st with
  | nil =>
    rw [List.flatMap_nil, List.nil_append, List.nil_append, yields, yields, List.append_nil]
    exact scan_cut h (hquotes a (by simp)) hlong hend
  | cons b front ih =>
    have hpiece := scan_piece h (hquotes b (by simp)) (hslashes b List.mem_cons_self)
      (front.flatMap piece ++ (piece a).take k)
    rw [List.flatMap_cons, List.append_assoc, hpiece, List.cons_append, yields,
      ih (Or.inl rfl) (fun b hb => hquotes b (List.mem_cons_of_mem _ hb))
        (fun b hb => hslashes b (List.mem_cons_of_mem _ hb))]

/-! ### Which arguments come back -/

/-- A piece without quotes gives back its tabs or loses them. -/
theorem tabs_yield (h : st.Fresh) (hquote : quote ∉ a) :
    (yield st a).flatten.count tab = if space ∈ a then a.count tab else 0 := by
  unfold yield
  split
  · simp
  · obtain ⟨-, -, htabs⟩ := scan_unquoted h.unquoted hquote
    rw [List.count_eq_zero, List.mem_flatten]
    rintro ⟨w, hw, hmem⟩
    exact htabs w hw hmem

theorem tabs_yields_le (h : st.Fresh) (hquotes : ∀ b ∈ argv, quote ∉ b) :
    (yields st argv).flatten.count tab ≤ argv.flatten.count tab := by
  induction argv generalizing st with
  | nil => exact Nat.zero_le _
  | cons a as ih =>
    have hfirst := tabs_yield h (hquotes a List.mem_cons_self)
    have hrest := ih (Or.inl rfl) fun b hb => hquotes b (List.mem_cons_of_mem _ hb)
    rw [yields, List.flatten_append, List.count_append, List.flatten_cons, List.count_append,
      hfirst]
    split <;> omega

/-- No tab is lost only if each stands in quotes. -/
theorem tabs_of_yields (h : st.Fresh) (hquotes : ∀ b ∈ argv, quote ∉ b)
    (hcount : (yields st argv).flatten.count tab = argv.flatten.count tab) :
    ∀ b ∈ argv, tab ∈ b → space ∈ b := by
  induction argv generalizing st with
  | nil => simp
  | cons a as ih =>
    have hquotes' : ∀ b ∈ as, quote ∉ b := fun b hb => hquotes b (List.mem_cons_of_mem _ hb)
    have hfirst := tabs_yield h (hquotes a List.mem_cons_self)
    have hrest : (yields .between as).flatten.count tab ≤ as.flatten.count tab :=
      tabs_yields_le (Or.inl rfl) hquotes'
    rw [yields, List.flatten_append, List.count_append, List.flatten_cons, List.count_append,
      hfirst] at hcount
    have hboth : (tab ∈ a → space ∈ a) ∧
        (yields .between as).flatten.count tab = as.flatten.count tab := by
      split at hcount
      · rename_i hs
        exact ⟨fun _ => hs, by omega⟩
      · refine ⟨fun htab => ?_, by omega⟩
        have := List.count_pos_iff.mpr htab
        omega
    intro b hb
    rcases List.mem_cons.mp hb with rfl | hb
    · exact hboth.1
    · exact ih (Or.inl rfl) hquotes' hboth.2 b hb

theorem blank_eq_false {c : UInt8} (hspace : c ≠ space) (htab : c ≠ tab) : blank c = false := by
  simp [blank, hspace, htab]

theorem yield_word (hquote : quote ∉ a) (htab : tab ∈ a → space ∈ a) :
    yield .start a = [a] ∧ yield .between a = if a = [] then [] else [a] := by
  unfold yield
  by_cases hs : space ∈ a
  · rw [if_pos hs, if_pos hs, if_neg (ne_nil_of_space hs)]
    exact ⟨rfl, rfl⟩
  · rw [if_neg hs, if_neg hs]
    apply scan_word hquote
    intro c hc
    apply blank_eq_false
    · rintro rfl
      exact hs hc
    · rintro rfl
      exact hs (htab hc)

/-- Behind the first argument the empty ones are lost. -/
theorem yields_between (hquotes : ∀ b ∈ argv, quote ∉ b) (htabs : ∀ b ∈ argv, tab ∈ b → space ∈ b) :
    yields .between argv = argv.filter fun b => b ≠ [] := by
  induction argv with
  | nil => rfl
  | cons a as ih =>
    have hfirst := (yield_word (hquotes a List.mem_cons_self) (htabs a List.mem_cons_self)).2
    rw [yields, hfirst, ih (fun b hb => hquotes b (List.mem_cons_of_mem _ hb))
      (fun b hb => htabs b (List.mem_cons_of_mem _ hb)), List.filter_cons]
    by_cases ha : a = [] <;> simp [ha]

theorem yields_start_iff (hquotes : ∀ b ∈ argv, quote ∉ b) :
    yields .start argv = argv ↔
      (∀ b ∈ argv, tab ∈ b → space ∈ b) ∧ ∀ b ∈ argv.tail, b ≠ [] := by
  cases argv with
  | nil => simp [yields]
  | cons a as =>
    have hquotes' : ∀ b ∈ as, quote ∉ b := fun b hb => hquotes b (List.mem_cons_of_mem _ hb)
    have hvalue : (∀ b ∈ a :: as, tab ∈ b → space ∈ b) →
        yields .start (a :: as) = a :: as.filter fun b => b ≠ [] := by
      intro htabs
      rw [yields, (yield_word (hquotes a List.mem_cons_self) (htabs a List.mem_cons_self)).1,
        yields_between hquotes' fun b hb => htabs b (List.mem_cons_of_mem _ hb)]
      rfl
    constructor
    · intro h
      have htabs := tabs_of_yields (Or.inr rfl) hquotes (by rw [h])
      rw [hvalue htabs, List.cons.injEq, List.filter_eq_self] at h
      exact ⟨htabs, fun b hb => by simpa using h.2 b hb⟩
    · rintro ⟨htabs, hfilled⟩
      rw [hvalue htabs, List.cons.injEq, List.filter_eq_self]
      exact ⟨rfl, fun b hb => by simpa using hfilled b hb⟩

/-! ### Nothing else may be lost -/

/-- The characters of the uncut line. -/
theorem countP_pieces {P : UInt8 → Bool} (hquote : P quote = false) (argv : List Bytes) :
    (argv.flatMap piece).countP P =
      argv.flatten.countP P + argv.length * (if P space then 1 else 0) := by
  induction argv with
  | nil => simp
  | cons a as ih =>
    have hpiece : (piece a).countP P = a.countP P + if P space then 1 else 0 := by
      unfold piece
      split <;> simp [hquote]
    rw [List.flatMap_cons, List.countP_append, ih, hpiece, List.flatten_cons, List.countP_append,
      List.length_cons, Nat.add_mul, Nat.one_mul]
    omega

/-- A line that comes back loses a blank at its end, at most, and quotes. -/
theorem cut_of_scan (h : scan .start (ninjaLine argv) = argv) :
    (∀ c ∈ (argv.flatMap piece).drop lineMax, c = space ∨ c = quote) ∧
      ((argv.flatMap piece).drop lineMax).countP blank ≤ 1 := by
  have hsplit : ∀ P : UInt8 → Bool, (argv.flatMap piece).countP P =
      (ninjaLine argv).countP P + ((argv.flatMap piece).drop lineMax).countP P := fun P => by
    rw [ninjaLine_eq, ← List.countP_append, List.take_append_drop]
  constructor
  · intro c hc
    by_contra hno
    rw [not_or] at hno
    have hquote : (fun b : UInt8 => b == c) quote = false := beq_false_of_ne (Ne.symm hno.2)
    have hspace : (space == c) = false := beq_false_of_ne (Ne.symm hno.1)
    have hkept := @countP_scan (fun b => b == c) hquote .start (ninjaLine argv)
    have hall := @countP_pieces (fun b => b == c) hquote argv
    have hcut : 0 < ((argv.flatMap piece).drop lineMax).countP fun b => b == c :=
      List.countP_pos_iff.mpr ⟨c, hc, beq_self_eq_true c⟩
    rw [h] at hkept
    rw [hsplit, hspace] at hall
    simp only [Scan.start, Scan.pending, List.replicate_zero, List.append_nil, List.countP_nil,
      Bool.false_eq_true, if_false] at hkept hall
    omega
  · have hkept := blanks_scan .start (ninjaLine argv)
    have hall := countP_pieces (show blank quote = false by decide) argv
    rw [h] at hkept
    rw [hsplit, if_pos (by decide)] at hall
    simp only [Scan.start, Scan.pending, List.replicate_zero, List.append_nil,
      List.countP_nil] at hkept
    omega

/-- No backslash stands in front of a quote. -/
theorem free_of_scan (h : scan .start (ninjaLine argv) = argv) :
    ¬ [escape, quote] <:+: ninjaLine argv := by
  rintro ⟨front, back, hline⟩
  rw [List.append_assoc, List.cons_append, List.cons_append, List.nil_append] at hline
  have hlost := escapes_scan_lt .start front back
  have hquote : (fun c : UInt8 => c == escape) quote = false := by decide
  have hall : (argv.flatMap piece).count escape =
      argv.flatten.count escape + argv.length * (if (space == escape) then 1 else 0) :=
    countP_pieces hquote argv
  have hline' : (ninjaLine argv).count escape ≤ (argv.flatMap piece).count escape := by
    rw [ninjaLine_eq]
    exact (List.take_sublist _ _).count_le _
  rw [hline, h] at hlost
  rw [if_neg (by decide)] at hall
  simp only [Scan.start, Scan.pending, List.replicate_zero, List.append_nil,
    List.count_nil] at hlost
  omega

theorem quotes_of_scan (h : scan .start (ninjaLine argv) = argv) : ∀ b ∈ argv, quote ∉ b := by
  have hcount := quotes_scan .start (ninjaLine argv) (free_of_scan h) (fun _ => rfl)
  rw [h] at hcount
  intro b hb hmem
  have hpos : 0 < argv.flatten.count quote :=
    List.count_pos_iff.mpr (List.mem_flatten.mpr ⟨b, hb, hmem⟩)
  simp only [Scan.start, Scan.pending, List.replicate_zero, List.append_nil,
    List.count_nil] at hcount
  omega

theorem piece_last (b : Bytes) : (piece b).getLast? = some space := by
  unfold piece
  split
  · rw [show quote :: (b ++ [quote, space]) = (quote :: b ++ [quote]) ++ [space] by simp,
      List.getLast?_concat]
  · rw [List.getLast?_concat]

/-- The text that must fit, all of the line but the end of its last piece. -/
def needed (front : List Bytes) (a : Bytes) : Bytes :=
  front.flatMap piece ++ (if space ∈ a then quote :: a else a)

theorem length_needed (front : List Bytes) (a : Bytes) :
    (needed front a).length =
      (front.map pieceLength).sum + a.length + if space ∈ a then 1 else 0 := by
  rw [needed, List.length_append, length_pieces]
  split
  · rw [List.length_cons]
    omega
  · rfl

theorem pieces_eq_needed (front : List Bytes) (a : Bytes) :
    (front ++ [a]).flatMap piece =
      needed front a ++ if space ∈ a then [quote, space] else [space] := by
  rw [List.flatMap_append, List.flatMap_singleton, needed, piece]
  split <;> simp

theorem needed_last {front : List Bytes} {x : UInt8} (hquote : quote ∉ a)
    (h : (needed front a).getLast? = some x) : x ≠ quote := by
  unfold needed at h
  by_cases hnil : a = []
  · rw [if_neg (by simp [hnil]), hnil, List.append_nil] at h
    rcases List.eq_nil_or_concat front with rfl | ⟨f, b, rfl⟩
    · cases h
    · rw [List.concat_eq_append, List.flatMap_append, List.flatMap_singleton,
        List.getLast?_append, piece_last] at h
      cases h
      decide
  · have hlast : a.getLast? = some x := by
      split at h
      · rwa [List.getLast?_append_of_ne_nil _ (List.cons_ne_nil _ _),
          ← List.singleton_append, List.getLast?_append_of_ne_nil _ hnil] at h
      · rwa [List.getLast?_append_of_ne_nil _ hnil] at h
    rintro rfl
    exact hquote (List.mem_of_getLast? hlast)

theorem fits_of_scan {front : List Bytes} (h : scan .start (ninjaLine (front ++ [a])) = front ++ [a]) :
    (needed front a).length ≤ lineMax := by
  have hquote := quotes_of_scan h a (by simp)
  obtain ⟨hkinds, hblanks⟩ := cut_of_scan h
  by_contra hlong
  rcases List.eq_nil_or_concat (needed front a) with hnil | ⟨text, x, htext⟩
  · rw [hnil] at hlong
    exact hlong (Nat.zero_le _)
  · rw [List.concat_eq_append] at htext
    have hlen : lineMax ≤ text.length := by
      rw [htext, List.length_append, List.length_singleton] at hlong
      omega
    have hcut : ((front ++ [a]).flatMap piece).drop lineMax =
        text.drop lineMax ++ ([x] ++ if space ∈ a then [quote, space] else [space]) := by
      rw [pieces_eq_needed, htext, List.append_assoc, List.drop_append_of_le_length hlen]
    rw [hcut] at hkinds hblanks
    have hx : x ≠ quote := needed_last hquote (by rw [htext, List.getLast?_concat])
    -- so the last character that must fit would be a second blank that is lost
    obtain rfl : x = space := (hkinds x (by simp)).resolve_right hx
    have hspace : blank space = true := by decide
    split at hblanks
    all_goals
      simp only [List.countP_append, List.countP_cons, List.countP_nil, hspace, if_true] at hblanks
      omega

theorem slashes_of_scan (h : scan .start (ninjaLine argv) = argv) {front : List Bytes}
    {back : List Bytes} (hargv : argv = front ++ a :: back) (hs : space ∈ a)
    (hend : a.getLast? = some escape) :
    back = [] ∧ lineMax ≤ (front.map pieceLength).sum + a.length + 1 := by
  obtain ⟨text, rfl⟩ := List.getLast?_eq_some_iff.mp hend
  have hlate : lineMax ≤ (front.map pieceLength).sum + (text ++ [escape]).length + 1 := by
    by_contra hearly
    apply free_of_scan h
    refine (List.infix_append (front.flatMap piece ++ quote :: text) [escape, quote] []).trans
      (List.IsPrefix.isInfix ?_)
    rw [ninjaLine_eq, hargv, List.flatMap_append, List.flatMap_cons, piece, if_pos hs]
    have hsplit : front.flatMap piece ++ (quote :: (text ++ [escape] ++ [quote, space]) ++
        back.flatMap piece) = (front.flatMap piece ++ quote :: text ++ [escape, quote] ++ []) ++
          (space :: back.flatMap piece) := by simp
    rw [hsplit]
    apply List.prefix_take_iff.mpr
    refine ⟨List.prefix_append _ _, ?_⟩
    rw [List.length_append, List.length_singleton] at hearly
    simp only [List.length_append, List.length_cons, List.length_nil, length_pieces]
    omega
  refine ⟨?_, hlate⟩
  rcases List.eq_nil_or_concat back with hback | ⟨mid, b, rfl⟩
  · exact hback
  · -- a later argument would not fit
    rw [List.concat_eq_append] at hargv
    have hsplit : argv = (front ++ (text ++ [escape]) :: mid) ++ [b] := by
      rw [hargv]
      simp
    rw [hsplit] at h
    have hfits := fits_of_scan h
    rw [length_needed] at hfits
    simp only [List.map_append, List.map_cons, List.sum_append, List.sum_cons] at hfits
    have hpiece : pieceLength (text ++ [escape]) = (text ++ [escape]).length + 3 := by
      rw [pieceLength, if_pos hs]
    omega

/-! ### The round trip -/

/-- Without quotes in the arguments, the line is read piece by piece. -/
theorem scan_eq_yields (hne : argv ≠ []) (hquotes : ∀ a ∈ argv, quote ∉ a)
    (hslashes : ∀ front a back, argv = front ++ a :: back → space ∈ a →
      a.getLast? = some escape →
        back = [] ∧ lineMax ≤ (front.map pieceLength).sum + a.length + 1)
    (hfits : ∀ front a, argv = front ++ [a] →
      (front.map pieceLength).sum + a.length + (if space ∈ a then 1 else 0) ≤ lineMax) :
    scan .start (ninjaLine argv) = yields .start argv := by
  obtain ⟨front, a, rfl⟩ : ∃ front a, argv = front ++ [a] :=
    ⟨_, _, (List.dropLast_append_getLast hne).symm⟩
  have hfit := hfits front a rfl
  have hline : ninjaLine (front ++ [a]) = front.flatMap piece ++
      (piece a).take (lineMax - (front.flatMap piece).length) := by
    rw [ninjaLine_eq, List.flatMap_append, List.flatMap_singleton, List.take_append,
      List.take_of_length_le]
    rw [length_pieces]
    omega
  have hclosed : ∀ b ∈ front, space ∈ b → b.getLast? ≠ some escape := by
    intro b hb hs hend
    obtain ⟨f, mid, rfl⟩ := List.append_of_mem hb
    have hback := (hslashes f b (mid ++ [a]) (by simp) hs hend).1
    simp at hback
  rw [hline, scan_ninjaLine (Or.inr rfl) hquotes hclosed]
  · rw [length_pieces]
    omega
  · intro hs hend
    have := (hslashes front a [] rfl hs hend).2
    rw [length_pieces]
    omega

theorem scan_ninjaLine_iff (hne : argv ≠ []) :
    scan .start (ninjaLine argv) = argv ↔ Quotable argv := by
  constructor
  · intro h
    have hquotes := quotes_of_scan h
    have hslashes : ∀ front a back, argv = front ++ a :: back → space ∈ a →
        a.getLast? = some escape →
          back = [] ∧ lineMax ≤ (front.map pieceLength).sum + a.length + 1 :=
      fun _ _ _ hargv hs hend => slashes_of_scan h hargv hs hend
    have hfits : ∀ front a, argv = front ++ [a] →
        (front.map pieceLength).sum + a.length + (if space ∈ a then 1 else 0) ≤ lineMax := by
      rintro front a rfl
      rw [← length_needed]
      exact fits_of_scan h
    rw [scan_eq_yields hne hquotes hslashes hfits] at h
    obtain ⟨htabs, hfilled⟩ := (yields_start_iff hquotes).mp h
    exact ⟨hne, hfilled, hquotes, htabs, hslashes, hfits⟩
  · intro h
    rw [scan_eq_yields hne h.quotes h.slashes h.fits]
    exact (yields_start_iff h.quotes).mpr ⟨h.tabs, h.filled⟩

theorem ninjaLine_ne_nil (hne : argv ≠ []) : ninjaLine argv ≠ [] := by
  obtain ⟨a, as, rfl⟩ := List.exists_cons_of_ne_nil hne
  rw [ninjaLine_eq, List.flatMap_cons]
  intro h
  have hlen := congrArg List.length h
  rw [List.length_take, List.length_append, length_piece, lineMax, pieceLength,
    List.length_nil] at hlen
  split at hlen <;> omega

/-- **The command line of ninja.** The program that is started gets the arguments that
`run_ninja` was given, or none is started, exactly if `CreateProcessA` fails or the arguments
are quotable. -/
theorem run_ninja_iff (exe : Bytes) (created : Bool) (argv : List Bytes) :
    (∀ line, runNinja created argv = .started line → commandLineToArgv exe line = argv) ↔
      created = false ∨ Quotable argv := by
  cases created with
  | false => exact iff_of_true (fun line h => by cases h) (Or.inl rfl)
  | true =>
    have hstarted : runNinja true argv = .started (ninjaLine argv) := rfl
    have hline : commandLineToArgv exe (ninjaLine argv) = argv ↔ Quotable argv := by
      by_cases hne : argv = []
      · subst hne
        refine iff_of_false ?_ fun h => h.nonempty rfl
        exact List.cons_ne_nil exe []
      · rw [commandLineToArgv, if_neg (ninjaLine_ne_nil hne), scan_ninjaLine_iff hne]
    constructor
    · exact fun h => Or.inr (hline.mp (h _ hstarted))
    · rintro (h | h) line hl
      · cases h
      · rw [hstarted, Launch.started.injEq] at hl
        rw [← hl]
        exact hline.mpr h

/-- The arguments with a directory that has a space in its name and a backslash at its end. -/
def solutionArgs : List Bytes := [lit "ninja.exe", lit "-C", lit "c:\\my dir\\", lit "all"]

/-- The closing quote is taken for part of the directory, and the rest of the line with it. -/
theorem trailing_backslash_joins :
    runNinja true solutionArgs = .started (lit "ninja.exe -C \"c:\\my dir\\\" all ") ∧
      commandLineToArgv [] (lit "ninja.exe -C \"c:\\my dir\\\" all ") =
        [lit "ninja.exe", lit "-C", lit "c:\\my dir\" all "] ∧
      ¬ ∀ line, runNinja true solutionArgs = .started line →
        commandLineToArgv [] line = solutionArgs := by
  have hstarted : runNinja true solutionArgs =
      .started (lit "ninja.exe -C \"c:\\my dir\\\" all ") := by decide
  have hsplit : commandLineToArgv [] (lit "ninja.exe -C \"c:\\my dir\\\" all ") =
      [lit "ninja.exe", lit "-C", lit "c:\\my dir\" all "] := by decide
  refine ⟨hstarted, hsplit, fun h => ?_⟩
  have hback := h _ hstarted
  rw [hsplit] at hback
  exact absurd hback (by decide)

end ToolchainTools
