import ToolchainTools.CLib.Strings

/-!
# Command lines

A program on Windows is started with one string, and cuts it into its arguments itself.
`commandLineToArgv` follows the documented rules: blanks outside quotes separate arguments,
`2n` backslashes in front of a quote stand for `n` backslashes, and `2n + 1` for `n`
backslashes and a quote that is part of the argument. Blanks in front of the line leave an
empty first argument, and an empty line stands for the path of the program itself.

The scanner only loses characters. What it keeps is counted once for all lines, and used in
one direction: a line from which nothing may be lost has no backslash in front of a quote.
-/

namespace CLib

def space : UInt8 := 32

def tab : UInt8 := 9

def quote : UInt8 := 34

/-- The backslash. -/
def escape : UInt8 := 92

def blank (c : UInt8) : Bool := c = space || c = tab

/-- Between two arguments, or in one with the text read so far; the backslashes that end it
are counted apart until it is known what they stand for. -/
inductive Scan where
  | between
  | inArg (quoted : Bool) (slashes : Nat) (text : Bytes)
  deriving DecidableEq

namespace Scan

/-- One more character of an argument: what is finished by it, and what follows. -/
def argStep (quoted : Bool) (slashes : Nat) (text : Bytes) (c : UInt8) : List Bytes × Scan :=
  if c = escape then ([], inArg quoted (slashes + 1) text)
  else if c = quote then
    if slashes % 2 = 0 then
      ([], inArg (!quoted) 0 (text ++ List.replicate (slashes / 2) escape))
    else ([], inArg quoted 0 (text ++ List.replicate (slashes / 2) escape ++ [quote]))
  else if blank c ∧ quoted = false then ([text ++ List.replicate slashes escape], between)
  else ([], inArg quoted 0 (text ++ List.replicate slashes escape ++ [c]))

def step : Scan → UInt8 → List Bytes × Scan
  | between, c => if blank c then ([], between) else argStep false 0 [] c
  | inArg quoted slashes text, c => argStep quoted slashes text c

/-- The text that is not finished yet. -/
def pending : Scan → Bytes
  | between => []
  | inArg _ slashes text => text ++ List.replicate slashes escape

/-- The end of the line ends the argument. -/
def flush : Scan → List Bytes
  | between => []
  | inArg _ slashes text => [text ++ List.replicate slashes escape]

/-- The first argument is there even if blanks follow at once. -/
def start : Scan := inArg false 0 []

end Scan

/-- The arguments that a line goes on with. -/
def scan : Scan → Bytes → List Bytes
  | st, [] => st.flush
  | st, c :: cs => (st.step c).1 ++ scan (st.step c).2 cs

def commandLineToArgv (exe line : Bytes) : List Bytes :=
  if line = [] then [exe] else scan .start line

/-! ## What the scanner keeps -/

variable {st : Scan} {cs : Bytes}

namespace Scan

theorem step_blank {c : UInt8} (h : blank c = true) : step between c = ([], between) := by
  rw [step, if_pos h]

theorem step_other {c : UInt8} (h : blank c = false) : step between c = argStep false 0 [] c := by
  rw [step, if_neg (by simp [h])]

/-- The four things that a character of an argument can do. -/
theorem argStep_cases (q : Bool) (n : Nat) (t : Bytes) (c : UInt8) :
    c = escape ∧ argStep q n t c = ([], inArg q (n + 1) t) ∨
      (c = quote ∧ ∃ q' more, more.countP (· ≠ quote) = 0 ∧ (n = 0 → more = []) ∧
        argStep q n t c = ([], inArg q' 0 (t ++ List.replicate (n / 2) escape ++ more))) ∨
      (blank c = true ∧ argStep q n t c = ([t ++ List.replicate n escape], between)) ∨
      (c ≠ quote ∧ (q = false → blank c = false) ∧
        argStep q n t c = ([], inArg q 0 (t ++ List.replicate n escape ++ [c]))) := by
  unfold argStep
  split
  · rename_i hc
    exact Or.inl ⟨hc, rfl⟩
  · right
    split
    · rename_i hc
      left
      refine ⟨hc, ?_⟩
      split
      · exact ⟨!q, [], rfl, fun _ => rfl, by rw [List.append_nil]⟩
      · rename_i hodd
        exact ⟨q, [quote], by decide, fun hn => absurd (by rw [hn]) hodd, rfl⟩
    · rename_i hc
      right
      split
      · rename_i hand
        exact Or.inl ⟨hand.1, rfl⟩
      · rename_i hand
        refine Or.inr ⟨hc, fun hq => ?_, rfl⟩
        by_contra hb
        exact hand ⟨by simpa using hb, hq⟩

theorem countP_argStep {P : UInt8 → Bool} (hquote : P quote = false) (q : Bool) (n : Nat)
    (t : Bytes) (c : UInt8) :
    (argStep q n t c).1.flatten.countP P + (argStep q n t c).2.pending.countP P ≤
      (inArg q n t).pending.countP P + [c].countP P := by
  rcases argStep_cases q n t c with ⟨hc, h⟩ | ⟨-, q', more, hmore, -, h⟩ | ⟨-, h⟩ | ⟨-, -, h⟩
  · rw [h, hc]
    simp only [pending, List.flatten_nil, List.countP_nil, List.replicate_succ',
      List.countP_append]
    omega
  · have hhalf : (List.replicate (n / 2) escape).countP P ≤ (List.replicate n escape).countP P := by
      apply List.Sublist.countP_le
      exact (List.replicate_sublist_replicate _).mpr (Nat.div_le_self n 2)
    have hadded : more.countP P = 0 := by
      rw [List.countP_eq_zero] at hmore ⊢
      intro a ha
      have := hmore a ha
      simp only [ne_eq, decide_not, Bool.not_eq_true', decide_eq_false_iff_not, not_not] at this
      rw [this, hquote]
      exact Bool.false_ne_true
    rw [h]
    simp only [pending, List.flatten_nil, List.countP_nil, List.countP_append,
      List.replicate_zero, hadded]
    omega
  · rw [h]
    simp only [pending, List.flatten_cons, List.flatten_nil, List.append_nil, List.countP_nil]
    omega
  · rw [h]
    simp only [pending, List.flatten_nil, List.countP_nil, List.countP_append,
      List.replicate_zero]
    omega

/-- Nothing but quotes is ever added. -/
theorem countP_step {P : UInt8 → Bool} (hquote : P quote = false) (st : Scan) (c : UInt8) :
    (st.step c).1.flatten.countP P + (st.step c).2.pending.countP P ≤
      st.pending.countP P + [c].countP P := by
  cases st with
  | inArg q n t => exact countP_argStep hquote q n t c
  | between =>
    cases hb : blank c with
    | true =>
      rw [step_blank hb]
      simp [pending]
    | false =>
      rw [step_other hb]
      exact countP_argStep hquote false 0 [] c

theorem blanks_argStep (q : Bool) (n : Nat) (t : Bytes) (c : UInt8) :
    (argStep q n t c).1.flatten.countP blank + (argStep q n t c).1.length +
      (argStep q n t c).2.pending.countP blank ≤
        (inArg q n t).pending.countP blank + [c].countP blank := by
  have hkept := countP_argStep (show blank quote = false by decide) q n t c
  rcases argStep_cases q n t c with ⟨-, h⟩ | ⟨-, q', more, -, -, h⟩ | ⟨hb, h⟩ | ⟨-, -, h⟩
  · rw [h] at hkept ⊢
    exact hkept
  · rw [h] at hkept ⊢
    exact hkept
  · rw [h]
    simp [pending, hb]
  · rw [h] at hkept ⊢
    exact hkept

/-- Every argument that is finished before the end of the line costs a blank. -/
theorem blanks_step (st : Scan) (c : UInt8) :
    (st.step c).1.flatten.countP blank + (st.step c).1.length +
      (st.step c).2.pending.countP blank ≤ st.pending.countP blank + [c].countP blank := by
  cases st with
  | inArg q n t => exact blanks_argStep q n t c
  | between =>
    cases hb : blank c with
    | true =>
      rw [step_blank hb]
      simp [pending]
    | false =>
      rw [step_other hb]
      exact blanks_argStep false 0 [] c

end Scan

theorem countP_scan {P : UInt8 → Bool} (hquote : P quote = false) (st : Scan) (cs : Bytes) :
    (scan st cs).flatten.countP P ≤ st.pending.countP P + cs.countP P := by
  induction cs generalizing st with
  | nil => cases st <;> simp [scan, Scan.flush, Scan.pending]
  | cons c cs ih =>
    have hstep := st.countP_step hquote c
    have hrest := ih (st.step c).2
    rw [scan, List.flatten_append, List.countP_append, ← List.singleton_append, List.countP_append]
    omega

theorem blanks_scan (st : Scan) (cs : Bytes) :
    (scan st cs).flatten.countP blank + (scan st cs).length ≤
      st.pending.countP blank + cs.countP blank + 1 := by
  induction cs generalizing st with
  | nil => cases st <;> simp [scan, Scan.flush, Scan.pending]
  | cons c cs ih =>
    have hstep := st.blanks_step c
    have hrest := ih (st.step c).2
    rw [scan, List.flatten_append, List.countP_append, List.length_append,
      ← List.singleton_append, List.countP_append]
    omega

/-- A backslash in front of a quote is lost. -/
theorem escapes_scan_lt (st : Scan) (front back : Bytes) :
    (scan st (front ++ escape :: quote :: back)).flatten.count escape <
      st.pending.count escape + (front ++ escape :: quote :: back).count escape := by
  have hquote : (fun c : UInt8 => c == escape) quote = false := by decide
  induction front generalizing st with
  | nil =>
    -- the backslash is counted, and the quote halves the count
    obtain ⟨q, n, t, hstep, hpend⟩ : ∃ q n t, st.step escape = ([], .inArg q (n + 1) t) ∧
        st.pending = t ++ List.replicate n escape := by
      cases st with
      | between => exact ⟨false, 0, [], rfl, rfl⟩
      | inArg q n t => exact ⟨q, n, t, rfl, rfl⟩
    have hrest : (scan ((Scan.inArg q (n + 1) t).step quote).2 back).flatten.count escape ≤
        ((Scan.inArg q (n + 1) t).step quote).2.pending.count escape + back.count escape :=
      countP_scan hquote _ back
    have hhalf : ((Scan.inArg q (n + 1) t).step quote).1 = [] ∧
        ((Scan.inArg q (n + 1) t).step quote).2.pending.count escape =
          t.count escape + (n + 1) / 2 := by
      have hne : quote ≠ escape := by decide
      rw [Scan.step, Scan.argStep, if_neg hne, if_pos rfl]
      split <;> simp [Scan.pending, hne]
    have hne : escape ≠ quote := by decide
    rw [List.nil_append, scan, hstep, List.nil_append, scan, hhalf.1, List.nil_append, hpend,
      List.count_append, List.count_replicate_self, List.count_cons_self,
      List.count_cons_of_ne (Ne.symm hne)]
    dsimp only
    omega
  | cons c cs ih =>
    have hstep : (st.step c).1.flatten.count escape + (st.step c).2.pending.count escape ≤
        st.pending.count escape + [c].count escape := st.countP_step hquote c
    have hrest := ih (st.step c).2
    have hcons : (c :: (cs ++ escape :: quote :: back)).count escape =
        [c].count escape + (cs ++ escape :: quote :: back).count escape := by
      rw [← List.count_append]
      rfl
    rw [List.cons_append, scan, List.flatten_append, List.count_append, hcons]
    omega

/-- The backslashes that are still counted. -/
def Scan.slashes : Scan → Nat
  | between => 0
  | inArg _ n _ => n

theorem Scan.quotes_argStep (q : Bool) (n : Nat) (t : Bytes) {c : UInt8} (hc : c = quote → n = 0) :
    (argStep q n t c).1.flatten.count quote + (argStep q n t c).2.pending.count quote =
        (inArg q n t).pending.count quote ∧
      ((argStep q n t c).2.slashes ≠ 0 → c = escape) := by
  have hne : escape ≠ quote := by decide
  rcases argStep_cases q n t c with ⟨he, h⟩ | ⟨hq, q', more, -, hmore, h⟩ | ⟨-, h⟩ | ⟨hq, -, h⟩
  · rw [h]
    exact ⟨by simp [pending, List.count_replicate, hne], fun _ => he⟩
  · rw [h, hmore (hc hq), hc hq]
    exact ⟨by simp [pending], fun hslash => absurd rfl hslash⟩
  · rw [h]
    exact ⟨by simp [pending], fun hslash => absurd rfl hslash⟩
  · rw [h]
    exact ⟨by simp [pending, hq], fun hslash => absurd rfl hslash⟩

theorem Scan.quotes_step (st : Scan) {c : UInt8} (hc : c = quote → st.slashes = 0) :
    (st.step c).1.flatten.count quote + (st.step c).2.pending.count quote =
        st.pending.count quote ∧
      ((st.step c).2.slashes ≠ 0 → c = escape) := by
  cases st with
  | inArg q n t => exact quotes_argStep q n t hc
  | between =>
    cases hb : blank c with
    | true =>
      rw [step_blank hb]
      exact ⟨rfl, fun hslash => absurd rfl hslash⟩
    | false =>
      rw [step_other hb]
      exact quotes_argStep false 0 [] fun _ => rfl

/-- Without such a backslash no argument gets a quote. -/
theorem quotes_scan (st : Scan) (cs : Bytes) (hfree : ¬ [escape, quote] <:+: cs)
    (hhead : cs.head? = some quote → st.slashes = 0) :
    (scan st cs).flatten.count quote = st.pending.count quote := by
  induction cs generalizing st with
  | nil => cases st <;> simp [scan, Scan.flush, Scan.pending]
  | cons c cs ih =>
    obtain ⟨hcount, hslash⟩ := st.quotes_step fun hc : c = quote => hhead (by rw [hc]; rfl)
    have hrest := ih (st.step c).2 (fun h => hfree (h.trans (List.suffix_cons c cs).isInfix)) (by
      intro hnext
      by_contra hcounted
      obtain ⟨back, rfl⟩ := List.head?_eq_some_iff.mp hnext
      rw [hslash hcounted] at hfree
      exact hfree ⟨[], back, rfl⟩)
    rw [scan, List.flatten_append, List.count_append, hrest, hcount]

/-! ## Texts without quotes -/

/-- A text that the scanner takes as it stands: its own end is all that is still open. -/
theorem scan_text {q : Bool} {a : Bytes} (n : Nat) (t : Bytes) (hquote : quote ∉ a)
    (hblank : q = true ∨ ∀ c ∈ a, blank c = false) :
    ∃ n' t', (∀ rest, scan (.inArg q n t) (a ++ rest) = scan (.inArg q n' t') rest) ∧
      t' ++ List.replicate n' escape = t ++ List.replicate n escape ++ a ∧
      (a ≠ [] → a.getLast? ≠ some escape → n' = 0) := by
  induction a generalizing n t with
  | nil => exact ⟨n, t, fun _ => rfl, by rw [List.append_nil], fun h => absurd rfl h⟩
  | cons c a ih =>
    simp only [List.mem_cons, not_or] at hquote
    have hblank' : q = true ∨ ∀ c ∈ a, blank c = false :=
      hblank.imp_right fun h c hc => h c (List.mem_cons_of_mem _ hc)
    have hlast : ∀ n', (a ≠ [] → a.getLast? ≠ some escape → n' = 0) → a ≠ [] →
        (c :: a).getLast? ≠ some escape → n' = 0 := by
      intro n' h hne hend
      obtain ⟨d, ds, rfl⟩ := List.exists_cons_of_ne_nil hne
      rw [List.getLast?_cons_cons] at hend
      exact h hne hend
    by_cases hc : c = escape
    · have hstep : Scan.step (.inArg q n t) c = ([], .inArg q (n + 1) t) := by
        rw [Scan.step, Scan.argStep, if_pos hc]
      obtain ⟨n', t', hrun, htext, hzero⟩ := ih (n + 1) t hquote.2 hblank'
      refine ⟨n', t', fun rest => ?_, ?_, fun _ hend => ?_⟩
      · rw [List.cons_append, scan, hstep, List.nil_append]
        exact hrun rest
      · rw [htext, hc, List.replicate_succ']
        simp only [List.append_assoc, List.singleton_append]
      · apply hlast n' hzero _ hend
        rintro rfl
        exact hend (by rw [hc]; rfl)
    · have hstep : Scan.step (.inArg q n t) c =
          ([], .inArg q 0 (t ++ List.replicate n escape ++ [c])) := by
        have hand : ¬ (blank c ∧ q = false) := by
          rintro ⟨hb, hq⟩
          rcases hblank with h | h
          · rw [h] at hq
            cases hq
          · rw [h c List.mem_cons_self] at hb
            cases hb
        rw [Scan.step, Scan.argStep, if_neg hc, if_neg (Ne.symm hquote.1), if_neg hand]
      obtain ⟨n', t', hrun, htext, hzero⟩ :=
        ih 0 (t ++ List.replicate n escape ++ [c]) hquote.2 hblank'
      by_cases hnil : a = []
      · subst hnil
        exact ⟨0, t ++ List.replicate n escape ++ [c],
          fun rest => by rw [List.singleton_append, scan, hstep, List.nil_append],
          by rw [List.replicate_zero, List.append_nil], fun _ _ => rfl⟩
      · refine ⟨n', t', fun rest => ?_, ?_, fun _ hend => hlast n' hzero hnil hend⟩
        · rw [List.cons_append, scan, hstep, List.nil_append]
          exact hrun rest
        · rw [htext, List.replicate_zero, List.append_nil]
          simp only [List.append_assoc, List.singleton_append]

/-- At the beginning of an argument that has not been seen yet. -/
def Scan.Fresh (st : Scan) : Prop := st = between ∨ st = start

theorem Scan.Fresh.step {st : Scan} (h : st.Fresh) {c : UInt8} (hc : blank c = false) :
    st.step c = start.step c := by
  rcases h with rfl | rfl
  · rw [step_other hc]
    rfl
  · rfl

variable {st : Scan} {a : Bytes}

theorem Scan.Fresh.scan_quote (h : st.Fresh) (rest : Bytes) :
    scan st (quote :: rest) = scan (.inArg true 0 []) rest := by
  rw [scan, h.step (by decide)]
  rfl

/-- A text in quotes. -/
theorem scan_quoted (h : st.Fresh) (hne : a ≠ []) (hquote : quote ∉ a)
    (hend : a.getLast? ≠ some escape) (rest : Bytes) :
    scan st (quote :: (a ++ quote :: space :: rest)) = a :: scan .between rest ∧
      scan st (quote :: (a ++ [quote])) = [a] := by
  obtain ⟨n, t, hrun, htext, hzero⟩ := scan_text 0 [] hquote (Or.inl (Eq.refl true))
  rw [hzero hne hend] at hrun htext
  simp only [List.replicate_zero, List.append_nil, List.nil_append] at htext
  subst htext
  have hclose : Scan.step (.inArg true 0 t) quote = ([], .inArg false 0 t) := by
    rw [Scan.step, Scan.argStep, if_neg (by decide), if_pos rfl, if_pos rfl]
    simp
  have hspace : Scan.step (.inArg false 0 t) space = ([t], .between) := by
    rw [Scan.step, Scan.argStep, if_neg (by decide), if_neg (by decide), if_pos ⟨by decide, rfl⟩]
    simp
  constructor
  · rw [h.scan_quote, hrun, scan, hclose, List.nil_append, scan, hspace, List.singleton_append]
  · rw [h.scan_quote, hrun, scan, hclose, List.nil_append, scan, Scan.flush]
    simp

/-- An open quote. -/
theorem scan_unclosed (h : st.Fresh) (hquote : quote ∉ a) : scan st (quote :: a) = [a] := by
  obtain ⟨n, t, hrun, htext, -⟩ := scan_text 0 [] hquote (Or.inl (Eq.refl true))
  have hend := hrun []
  rw [List.append_nil] at hend
  rw [h.scan_quote, hend, scan, Scan.flush, htext]
  simp

/-- Outside quotes, with no tab in the argument so far. -/
def Scan.Unquoted : Scan → Prop
  | between => True
  | inArg q _ t => q = false ∧ tab ∉ t

theorem Scan.Fresh.unquoted (h : st.Fresh) : st.Unquoted := by
  rcases h with rfl | rfl
  · trivial
  · exact ⟨rfl, by simp⟩

theorem Scan.Unquoted.step_space (h : st.Unquoted) : st.step space = (st.flush, between) := by
  cases st with
  | between => rfl
  | inArg q n t =>
    rw [step, argStep, if_neg (by decide), if_neg (by decide), if_pos ⟨by decide, h.1⟩]
    rfl

theorem Scan.Unquoted.flush (h : st.Unquoted) : ∀ w ∈ st.flush, tab ∉ w := by
  cases st with
  | between => simp [Scan.flush]
  | inArg q n t =>
    simp only [Scan.flush, List.mem_singleton, forall_eq, List.mem_append, List.mem_replicate]
    rintro (hmem | ⟨-, heq⟩)
    · exact h.2 hmem
    · exact absurd heq (by decide)

theorem Scan.Unquoted.argStep {n : Nat} {t : Bytes} (ht : tab ∉ t) {c : UInt8} (hc : c ≠ quote) :
    (argStep false n t c).2.Unquoted ∧ ∀ w ∈ (argStep false n t c).1, tab ∉ w := by
  have hflush : ∀ w ∈ (inArg false n t).flush, tab ∉ w := Scan.Unquoted.flush ⟨rfl, ht⟩
  rcases argStep_cases false n t c with ⟨-, h⟩ | ⟨hq, -⟩ | ⟨-, h⟩ | ⟨-, hb, h⟩
  · rw [h]
    exact ⟨⟨rfl, ht⟩, by simp⟩
  · exact absurd hq hc
  · rw [h]
    exact ⟨trivial, hflush⟩
  · rw [h]
    refine ⟨⟨rfl, ?_⟩, by simp⟩
    have hopen : tab ∉ t ++ List.replicate n escape := hflush _ (List.mem_singleton_self _)
    rw [List.mem_append, not_or, List.mem_singleton]
    refine ⟨hopen, ?_⟩
    rintro rfl
    exact absurd (hb rfl) (by decide)

theorem Scan.Unquoted.step (h : st.Unquoted) {c : UInt8} (hc : c ≠ quote) :
    (st.step c).2.Unquoted ∧ ∀ w ∈ (st.step c).1, tab ∉ w := by
  cases st with
  | inArg q n t =>
    obtain ⟨rfl, ht⟩ := h
    exact argStep ht hc
  | between =>
    cases hb : blank c with
    | true =>
      rw [step_blank hb]
      exact ⟨trivial, by simp⟩
    | false =>
      rw [step_other hb]
      exact argStep (by simp) hc

/-- Outside quotes a text ends at the next space, and no tab gets into an argument. -/
theorem scan_unquoted (h : st.Unquoted) (hquote : quote ∉ a) :
    (∀ rest, scan st (a ++ space :: rest) = scan st (a ++ [space]) ++ scan .between rest) ∧
      scan st a = scan st (a ++ [space]) ∧ ∀ w ∈ scan st (a ++ [space]), tab ∉ w := by
  induction a generalizing st with
  | nil =>
    have hspace : ∀ rest, scan st (space :: rest) = st.flush ++ scan .between rest := fun rest => by
      rw [scan, h.step_space]
    refine ⟨fun rest => ?_, ?_, ?_⟩
    · rw [List.nil_append, List.nil_append, hspace, hspace, scan, Scan.flush, List.append_nil]
    · rw [List.nil_append, hspace, scan, scan, Scan.flush, List.append_nil]
    · rw [List.nil_append, hspace, scan, Scan.flush, List.append_nil]
      exact h.flush
  | cons c a ih =>
    simp only [List.mem_cons, not_or] at hquote
    obtain ⟨hnext, hout⟩ := h.step (Ne.symm hquote.1)
    obtain ⟨hrest, hend, htabs⟩ := ih hnext hquote.2
    refine ⟨fun rest => ?_, ?_, ?_⟩
    · rw [List.cons_append, scan, hrest, List.cons_append, scan, List.append_assoc]
    · rw [List.cons_append, scan, scan, hend]
    · rw [List.cons_append, scan]
      intro w hw
      rcases List.mem_append.mp hw with hw | hw
      · exact hout w hw
      · exact htabs w hw

/-- A word without blanks. -/
theorem scan_word (hquote : quote ∉ a) (hblank : ∀ c ∈ a, blank c = false) :
    scan .start (a ++ [space]) = [a] ∧
      scan .between (a ++ [space]) = if a = [] then [] else [a] := by
  have hstart : scan .start (a ++ [space]) = [a] := by
    obtain ⟨n, t, hrun, htext, -⟩ := scan_text 0 [] hquote (Or.inr hblank)
    have hend := hrun []
    rw [List.append_nil] at hend
    rw [← (scan_unquoted (Scan.Fresh.unquoted (Or.inr rfl)) hquote).2.1, Scan.start, hend, scan,
      Scan.flush, htext]
    simp
  refine ⟨hstart, ?_⟩
  cases a with
  | nil => rfl
  | cons c a =>
    rw [if_neg (List.cons_ne_nil c a), ← hstart, List.cons_append, scan, scan,
      Scan.Fresh.step (Or.inl rfl) (hblank c List.mem_cons_self)]

end CLib
