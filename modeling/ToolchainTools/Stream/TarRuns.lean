import ToolchainTools.Stream.TarArchive
import ToolchainTools.Stream.Buffer

/-!
# Runs over a tar archive

`TarRun` is a run of `next_tar_file` calls in which the caller passes over each regular
file or opens it and reads it to its end. The code looks at the body blocks of a member
of another typeflag as if they were headers. So a run is faithful exactly when none of
these blocks has an interpreted typeflag at offset 156 (`run_of_inert`,
`inert_of_exact`); in particular it is faithful when such members have no body.
-/

namespace ToolchainTools

open CLib Posix Streams

variable {σ : Type} {read : Reader σ}

/-- For each regular file and link, the bytes that follow its header block. -/
def headerEnds (zeros : Nat) : List TarMember → List Bytes
  | [] => []
  | m :: ms =>
    if m.item.isSome then (m.body ++ encodeTar ms zeros) :: headerEnds zeros ms
    else headerEnds zeros ms

/-- None of the blocks of a body would be taken for a header. -/
def InertBody (body : Bytes) : Prop :=
  ∀ k, tarBlockSize * (k + 1) ≤ body.length →
    ¬ interpreted (tarTypeflag (field body (tarBlockSize * k) tarBlockSize))

/-- None of the bodies that the code does not know would be taken for headers. -/
def Inert (ms : List TarMember) : Prop :=
  ∀ o, .other o ∈ ms → InertBody (o.content ++ o.padding)

/-! ## Runs -/

/-- Calls of `next_tar_file` until one does not return 0, with the container after each
call that did and the bytes the caller then read, if it opened the member. -/
inductive TarRun (read : Reader σ) (fuel : Nat) :
    TarContainer σ → List (TarContainer σ × Option Bytes) → Int → Prop
  | stop {c c' : TarContainer σ} {code : Int} :
      nextTarFile read fuel c = (some code, c') → code ≠ 0 → TarRun read fuel c [] code
  | pass {c c' : TarContainer σ} {out : List (TarContainer σ × Option Bytes)} {code : Int} :
      nextTarFile read fuel c = (some 0, c') → TarRun read fuel c' out code →
      TarRun read fuel c ((c', none) :: out) code
  | drain {c c' c'' : TarContainer σ} {ls ls' : LimitStream σ} {got : Bytes}
      {out : List (TarContainer σ × Option Bytes)} {code : Int} :
      nextTarFile read fuel c = (some 0, c') → openTarFile c' = (some ls, c'') →
      Drains (readLimit read) ls [] got ls' →
      TarRun read fuel (closeTarFile c'' ls') out code →
      TarRun read fuel c ((c', some got) :: out) code

/-- What a call reported, and the bytes read if any, are those of the member. -/
def Agrees (item : Member × Option Bytes) (o : TarContainer σ × Option Bytes) : Prop :=
  o.1.h = item.1 ∧ (o.2 = none ∨ o.2 = item.2)

/-! ## Scanning an archive -/

theorem tarScan_header {t rest : Bytes} (ht : t.length = tarBlockSize)
    (hflag : interpreted (tarTypeflag t)) : tarScan (t ++ rest) = .header t rest := by
  have htake : (t ++ rest).take tarBlockSize = t := List.take_left' ht
  have hdrop : (t ++ rest).drop tarBlockSize = rest := List.drop_left' ht
  unfold tarScan
  rw [if_neg, dif_neg, htake, hdrop, if_pos hflag]
  · simp only [List.length_append]
    omega
  · intro h
    rw [(List.append_eq_nil_iff.mp h).1] at ht
    simp [tarBlockSize] at ht

theorem tarScan_pass {t : Bytes} (ht : t.length = tarBlockSize)
    (hflag : ¬ interpreted (tarTypeflag t)) (rest : Bytes) : tarScan (t ++ rest) = tarScan rest := by
  have htake : (t ++ rest).take tarBlockSize = t := List.take_left' ht
  have hdrop : (t ++ rest).drop tarBlockSize = rest := List.drop_left' ht
  rw [tarScan, if_neg, dif_neg, htake, hdrop, if_neg hflag]
  · simp only [List.length_append]
    omega
  · intro h
    rw [(List.append_eq_nil_iff.mp h).1] at ht
    simp [tarBlockSize] at ht

theorem InertBody.tail {t body : Bytes} (ht : t.length = tarBlockSize) (h : InertBody (t ++ body)) :
    InertBody body := by
  intro k hk
  have hfield : field (t ++ body) (tarBlockSize * (k + 1)) tarBlockSize =
      field body (tarBlockSize * k) tarBlockSize := by
    unfold field
    rw [Nat.mul_succ, Nat.add_comm, ← List.drop_drop, List.drop_left' ht]
  rw [← hfield]
  apply h (k + 1)
  rw [List.length_append, ht]
  simp only [tarBlockSize] at hk ⊢
  omega

theorem inertBody_cons {t body : Bytes} (ht : t.length = tarBlockSize)
    (hflag : ¬ interpreted (tarTypeflag t)) (h : InertBody body) : InertBody (t ++ body) := by
  intro k hk
  cases k with
  | zero =>
    have : field (t ++ body) (tarBlockSize * 0) tarBlockSize = t := by
      rw [Nat.mul_zero, field, List.drop_zero, List.take_left' ht]
    rwa [this]
  | succ k =>
    have hfield : field (t ++ body) (tarBlockSize * (k + 1)) tarBlockSize =
        field body (tarBlockSize * k) tarBlockSize := by
      unfold field
      rw [Nat.mul_succ, Nat.add_comm, ← List.drop_drop, List.drop_left' ht]
    rw [hfield]
    apply h k
    rw [List.length_append, ht] at hk
    simp only [tarBlockSize] at hk ⊢
    omega

/-- Whole blocks are passed over when they are inert; else the scan stops inside them. -/
theorem tarScan_body {body : Bytes} (hblocks : tarBlockSize ∣ body.length) (tail : Bytes) :
    (InertBody body → tarScan (body ++ tail) = tarScan tail) ∧
      (¬ InertBody body → ∃ t rest, tarScan (body ++ tail) = .header t (rest ++ tail)) := by
  obtain ⟨n, hn⟩ := hblocks
  induction n generalizing body with
  | zero =>
    have hnil : body = [] := List.length_eq_zero_iff.mp hn
    subst hnil
    refine ⟨fun _ => rfl, fun h => (h ?_).elim⟩
    intro k hk
    simp [tarBlockSize] at hk
  | succ n ih =>
    have hsplit : body.take tarBlockSize ++ body.drop tarBlockSize = body :=
      List.take_append_drop ..
    have ht : (body.take tarBlockSize).length = tarBlockSize := by
      rw [List.length_take, hn, Nat.mul_succ]
      omega
    have hrest : (body.drop tarBlockSize).length = tarBlockSize * n := by
      rw [List.length_drop, hn, Nat.mul_succ]
      omega
    generalize body.take tarBlockSize = t at hsplit ht
    generalize body.drop tarBlockSize = rest at hsplit hrest
    subst hsplit
    rw [List.append_assoc]
    obtain ⟨hinert, hbad⟩ := ih hrest
    by_cases hflag : interpreted (tarTypeflag t)
    · refine ⟨fun h => ?_, fun _ => ⟨t, rest, tarScan_header ht hflag⟩⟩
      have h0 := h 0 (by rw [List.length_append, ht]; simp [tarBlockSize])
      rw [Nat.mul_zero, field, List.drop_zero, List.take_left' ht] at h0
      exact absurd hflag h0
    · rw [tarScan_pass ht hflag]
      refine ⟨fun h => hinert (h.tail ht), fun h => hbad fun hb => h ?_⟩
      exact inertBody_cons ht hflag hb

theorem inertBody_zeros (n : Nat) : InertBody (List.replicate n 0) := by
  intro k _
  have hflag : tarTypeflag (field (List.replicate n 0) (tarBlockSize * k) tarBlockSize) = 0 := by
    simp only [field, List.drop_replicate, List.take_replicate, tarTypeflag,
      List.getD_eq_getElem?_getD, List.getElem?_replicate]
    split <;> rfl
  rw [hflag]
  decide

theorem tarScan_zeros (n : Nat) : tarScan (List.replicate (tarBlockSize * n) 0) = .finish := by
  have hscan := (tarScan_body (by simp) []).1 (inertBody_zeros (tarBlockSize * n))
  rw [List.append_nil] at hscan
  rw [hscan, tarScan, if_pos rfl]

theorem encodeTar_cons (m : TarMember) (ms : List TarMember) (zeros : Nat) :
    encodeTar (m :: ms) zeros = m.header ++ (m.body ++ encodeTar ms zeros) := by
  simp [encodeTar, List.append_assoc]

theorem tarScan_item {m : TarMember} (h : m.item.isSome) (ms : List TarMember) (zeros : Nat) :
    tarScan (encodeTar (m :: ms) zeros) = .header m.header (m.body ++ encodeTar ms zeros) := by
  rw [encodeTar_cons]
  exact tarScan_header m.header_length (m.interpreted_header.mpr h)

theorem tarScan_other (o : TarOther) (ms : List TarMember) (zeros : Nat) :
    tarScan (encodeTar (.other o :: ms) zeros) =
      tarScan ((o.content ++ o.padding) ++ encodeTar ms zeros) := by
  rw [encodeTar_cons]
  exact tarScan_pass o.header_length o.flag _

/-! ## One call -/

/-- The container is between two members: behind what it has yet to step over, a scan finds
what a scan of `bytes` finds. -/
structure Ahead (C : Contract read) (fuel : Nat) (c : TarContainer σ) (bytes : Bytes) : Prop where
  valid : C.valid c.s
  skip : tarSkip c ≤ (C.rest c.s).length
  scan : tarScan ((C.rest c.s).drop (tarSkip c)) = tarScan bytes
  fuel : (C.rest c.s).length < fuel

variable {C : Contract read} {fuel zeros : Nat} {c : TarContainer σ} {ms : List TarMember}

theorem Ahead.finish (h : Ahead C fuel c (encodeTar [] zeros)) :
    ∃ c', nextTarFile read fuel c = (some 1, c') := by
  have hscan := nextTarFile_scan C h.valid h.skip h.fuel
  rw [h.scan, encodeTar, List.flatMap_nil, List.nil_append, tarScan_zeros] at hscan
  obtain ⟨s, hs, -⟩ := hscan
  exact ⟨_, hs⟩

/-- The next call reads a header that a scan finds. -/
theorem Ahead.header {bytes t rest : Bytes} (h : Ahead C fuel c bytes)
    (hscan : tarScan bytes = .header t rest) :
    ∃ s, nextTarFile read fuel c = (some (readTarHeader { c with padding := 0 } t).1,
        { (readTarHeader { c with padding := 0 } t).2 with s := s }) ∧
      C.valid s ∧ C.rest s = rest ∧ rest.length < fuel := by
  have hnext := nextTarFile_scan C h.valid h.skip h.fuel
  rw [h.scan, hscan] at hnext
  obtain ⟨s, hs, hv, hrest⟩ := hnext
  refine ⟨s, hs, hv, hrest, ?_⟩
  have hlen := tarScan_length (h.scan.trans hscan)
  have := h.fuel
  rw [List.length_drop] at hlen
  omega

/-- The next call reports a regular file; the container then has its body before it. -/
theorem Ahead.file {f : TarFile} (h : Ahead C fuel c (encodeTar (.file f :: ms) zeros)) :
    ∃ c', nextTarFile read fuel c = (some 0, c') ∧
      c'.h = ⟨f.path, none, f.content.length, octalValue f.mode⟩ ∧
      C.rest c'.s = f.content ++ f.padding ++ encodeTar ms zeros ∧
      c'.fileOpened = false ∧ c'.padding = f.padding.length ∧ C.valid c'.s ∧
      (C.rest c'.s).length < fuel := by
  obtain ⟨s, hs, hv, hrest, hfuel⟩ := h.header (tarScan_item (by rfl) ms zeros)
  rw [readTarHeader_file_member] at hs
  exact ⟨_, hs, rfl, hrest, rfl, rfl, hv, by rw [hrest]; exact hfuel⟩

theorem Ahead.link {l : TarLink} (h : Ahead C fuel c (encodeTar (.link l :: ms) zeros)) :
    ∃ c', nextTarFile read fuel c = (some 0, c') ∧
      c'.h = ⟨l.path, some l.linkname, 0, 0⟩ ∧ C.rest c'.s = encodeTar ms zeros ∧
      c'.fileOpened = true ∧ Ahead C fuel c' (encodeTar ms zeros) := by
  obtain ⟨s, hs, hv, hrest, hfuel⟩ := h.header (tarScan_item (by rfl) ms zeros)
  rw [readTarHeader_link_member] at hs
  refine ⟨_, hs, rfl, hrest, rfl, hv, ?_, ?_, by rw [hrest]; exact hfuel⟩
  · simp [tarSkip]
  · simp only [tarSkip, if_true, List.drop_zero, hrest]
    rfl

/-- After a regular file that was not opened, the container is before the next member. -/
theorem Ahead.of_pass {f : TarFile} (hrest : C.rest c.s = f.content ++ f.padding ++ encodeTar ms zeros)
    (hopened : c.fileOpened = false) (hpadding : c.padding = f.padding.length)
    (hh : c.h.fileSize = f.content.length) (hv : C.valid c.s) (hfuel : (C.rest c.s).length < fuel) :
    Ahead C fuel c (encodeTar ms zeros) := by
  have hcontent := f.content_lt
  have hlt := f.padding_length
  simp only [tarBlockSize] at hlt
  have hskip : tarSkip c = (f.content ++ f.padding).length := by
    rw [tarSkip, hopened, hpadding, hh, if_neg (by simp), add64_of_lt (by omega),
      List.length_append, Nat.add_comm]
  refine ⟨hv, ?_, ?_, hfuel⟩
  · rw [hskip, hrest]
    simp only [List.length_append]
    omega
  · rw [hskip, hrest, List.drop_left]

/-- After a regular file that was read to its end, the container is before the next member
and the caller has got the content. -/
theorem Ahead.of_drain {f : TarFile} {ls ls' : LimitStream σ} {c'' : TarContainer σ} {got : Bytes}
    (hrest : C.rest c.s = f.content ++ f.padding ++ encodeTar ms zeros)
    (hpadding : c.padding = f.padding.length) (hh : c.h.fileSize = f.content.length)
    (hv : C.valid c.s) (hfuel : (C.rest c.s).length < fuel)
    (hopen : openTarFile c = (some ls, c'')) (hd : Drains (readLimit read) ls [] got ls') :
    got = f.content ∧ Ahead C fuel (closeTarFile c'' ls') (encodeTar ms zeros) := by
  have hcontent := f.content_lt
  unfold openTarFile at hopen
  split at hopen
  · cases hopen
  · simp only [openLimited, Prod.mk.injEq, Option.some.injEq] at hopen
    obtain ⟨rfl, rfl⟩ := hopen
    obtain ⟨hgot, hv', hrest'⟩ := drains_limit C hd ⟨hv, by dsimp only; omega⟩
      (List.nil_prefix) (Nat.zero_le _) (Nat.zero_le _)
    simp only [hh, hrest, List.append_assoc, List.take_left, List.drop_left] at hgot hrest'
    refine ⟨hgot, hv', ?_, ?_, ?_⟩
    · simp only [closeTarFile, tarSkip, if_true, hpadding, hrest', List.length_append]
      omega
    · simp only [closeTarFile, tarSkip, if_true, hpadding, hrest', List.drop_left]
    · simp only [closeTarFile, hrest', hrest, List.length_append] at hfuel ⊢
      omega

/-- Inert bodies are stepped over. -/
theorem Ahead.of_other {o : TarOther} (h : Ahead C fuel c (encodeTar (.other o :: ms) zeros))
    (hinert : InertBody (o.content ++ o.padding)) : Ahead C fuel c (encodeTar ms zeros) := by
  refine ⟨h.valid, h.skip, ?_, h.fuel⟩
  rw [h.scan, tarScan_other]
  exact (tarScan_body (by rw [List.length_append]; exact o.aligned) _).1 hinert

/-! ## Whole runs -/

theorem openTar_ahead {s : σ} (hv : C.valid s) (hrest : C.rest s = encodeTar ms zeros)
    (hfuel : (encodeTar ms zeros).length < fuel) :
    Ahead C fuel (openTar s) (encodeTar ms zeros) := by
  refine ⟨hv, ?_, ?_, by simpa [openTar, hrest] using hfuel⟩
  · simp [openTar, tarSkip, add64]
  · simp [openTar, tarSkip, add64, hrest]

/-- Over inert bodies a run reports every regular file and link in order, each right behind
its header block, hands over the content of the files that are opened, and ends with 1. -/
theorem run_of_inert {out : List (TarContainer σ × Option Bytes)} {code : Int}
    (h : Ahead C fuel c (encodeTar ms zeros)) (hinert : Inert ms)
    (hrun : TarRun read fuel c out code) :
    code = 1 ∧ List.Forall₂ Agrees (ms.filterMap TarMember.item) out ∧
      out.map (fun o => C.rest o.1.s) = headerEnds zeros ms := by
  induction ms generalizing c out with
  | nil =>
    obtain ⟨c', hnext⟩ := h.finish
    cases hrun with
    | stop hcall _ =>
      rw [hnext] at hcall
      cases hcall
      exact ⟨rfl, .nil, rfl⟩
    | pass hcall _ =>
      rw [hnext] at hcall
      cases hcall
    | drain hcall _ _ _ =>
      rw [hnext] at hcall
      cases hcall
  | cons m ms ih =>
    have hinert' : Inert ms := fun o ho => hinert o (List.mem_cons_of_mem _ ho)
    cases m with
    | file f =>
      obtain ⟨c1, hnext, hh, hrest, hopened, hpadding, hv, hfuel⟩ := h.file
      have hsize : c1.h.fileSize = f.content.length := by rw [hh]
      cases hrun with
      | stop hcall hne =>
        rw [hnext] at hcall
        cases hcall
        exact absurd rfl hne
      | pass hcall hrun =>
        rw [hnext] at hcall
        cases hcall
        obtain ⟨hcode, hall, hends⟩ :=
          ih (.of_pass hrest hopened hpadding hsize hv hfuel) hinert' hrun
        refine ⟨hcode, .cons ⟨hh, Or.inl rfl⟩ hall, ?_⟩
        rw [List.map_cons, hends, hrest]
        rfl
      | drain hcall hopen hd hrun =>
        rw [hnext] at hcall
        cases hcall
        obtain ⟨hgot, hahead⟩ := Ahead.of_drain hrest hpadding hsize hv hfuel hopen hd
        obtain ⟨hcode, hall, hends⟩ := ih hahead hinert' hrun
        refine ⟨hcode, .cons ⟨hh, Or.inr (by rw [hgot])⟩ hall, ?_⟩
        rw [List.map_cons, hends, hrest]
        rfl
    | link l =>
      obtain ⟨c1, hnext, hh, hrest, hopened, hahead⟩ := h.link
      cases hrun with
      | stop hcall hne =>
        rw [hnext] at hcall
        cases hcall
        exact absurd rfl hne
      | pass hcall hrun =>
        rw [hnext] at hcall
        cases hcall
        obtain ⟨hcode, hall, hends⟩ := ih hahead hinert' hrun
        refine ⟨hcode, .cons ⟨hh, Or.inl rfl⟩ hall, ?_⟩
        rw [List.map_cons, hends, hrest]
        rfl
      | drain hcall hopen _ _ =>
        rw [hnext] at hcall
        cases hcall
        simp [openTarFile, hopened] at hopen
    | other o =>
      obtain ⟨hcode, hall, hends⟩ :=
        ih (h.of_other (hinert o List.mem_cons_self)) hinert' hrun
      exact ⟨hcode, hall, hends⟩

/-- Whichever of the regular files the caller wants to open, there is such a run. -/
theorem exists_run_of_inert (h : Ahead C fuel c (encodeTar ms zeros)) (hinert : Inert ms)
    (opens : List Bool) (hlen : opens.length = (ms.filterMap TarMember.item).length) :
    ∃ out, TarRun read fuel c out 1 ∧
      List.Forall₂ (fun o b => o.2.isSome = (b && o.1.h.linkTarget.isNone)) out opens := by
  induction ms generalizing c opens with
  | nil =>
    obtain ⟨c', hnext⟩ := h.finish
    have hnil : opens = [] := List.length_eq_zero_iff.mp hlen
    subst hnil
    exact ⟨[], .stop hnext (by decide), .nil⟩
  | cons m ms ih =>
    have hinert' : Inert ms := fun o ho => hinert o (List.mem_cons_of_mem _ ho)
    cases m with
    | file f =>
      obtain ⟨c1, hnext, hh, hrest, hopened, hpadding, hv, hfuel⟩ := h.file
      have hsize : c1.h.fileSize = f.content.length := by rw [hh]
      obtain ⟨b, opens, rfl⟩ := List.exists_cons_of_ne_nil
        (show opens ≠ [] by rintro rfl; simp [TarMember.item] at hlen)
      have hlen' : opens.length = (ms.filterMap TarMember.item).length := by
        simpa [TarMember.item] using hlen
      cases b with
      | false =>
        obtain ⟨out, hrun, hall⟩ :=
          ih (.of_pass hrest hopened hpadding hsize hv hfuel) hinert' opens hlen'
        exact ⟨_, .pass hnext hrun, .cons (by simp) hall⟩
      | true =>
        have hopen : openTarFile c1 =
            (some (openLimited c1.s c1.h.fileSize), { c1 with fileOpened := true }) := by
          simp [openTarFile, hopened]
        have hvalid : (openLimited c1.s c1.h.fileSize).Valid C := by
          have := f.content_lt
          exact ⟨hv, by dsimp only [openLimited]; omega⟩
        obtain ⟨got, ls', hd⟩ := (limitContract C).exists_drains hvalid List.nil_prefix
          (Nat.zero_le _)
        obtain ⟨-, hahead⟩ := Ahead.of_drain hrest hpadding hsize hv hfuel hopen hd
        obtain ⟨out, hrun, hall⟩ := ih hahead hinert' opens hlen'
        exact ⟨_, .drain hnext hopen hd hrun, .cons (by simp [hh]) hall⟩
    | link l =>
      obtain ⟨c1, hnext, hh, hrest, hopened, hahead⟩ := h.link
      obtain ⟨b, opens, rfl⟩ := List.exists_cons_of_ne_nil
        (show opens ≠ [] by rintro rfl; simp [TarMember.item] at hlen)
      obtain ⟨out, hrun, hall⟩ := ih hahead hinert' opens (by simpa [TarMember.item] using hlen)
      exact ⟨_, .pass hnext hrun, .cons (by simp [hh]) hall⟩
    | other o =>
      exact ih (h.of_other (hinert o List.mem_cons_self)) hinert' opens hlen

/-- On a finite source there is a run from every state of the container. -/
theorem exists_run (hv : C.valid c.s) (hfuel : (C.rest c.s).length < fuel) :
    ∃ out code, TarRun read fuel c out code := by
  generalize hn : (C.rest c.s).length = n
  induction n using Nat.strong_induction_on generalizing c with
  | _ n ih =>
    obtain ⟨code, c', hnext, hv', hless⟩ := nextTarFile_total C hv hfuel
    by_cases hcode : code = 0
    · subst hcode
      have hle := hless rfl
      simp only [tarBlockSize] at hle
      obtain ⟨out, code, hrun⟩ := ih _ (by omega) hv' (by omega) rfl
      exact ⟨_, code, .pass hnext hrun⟩
    · exact ⟨[], code, .stop hnext hcode⟩

theorem headerEnds_shorter {e : Bytes} (he : e ∈ headerEnds zeros ms) :
    e.length < (encodeTar ms zeros).length := by
  induction ms with
  | nil => cases he
  | cons m ms ih =>
    have hm := m.header_length
    simp only [tarBlockSize] at hm
    rw [encodeTar_cons, List.length_append, List.length_append]
    unfold headerEnds at he
    split at he
    · rcases List.mem_cons.mp he with rfl | he
      · rw [List.length_append]
        omega
      · have := ih he
        omega
    · have := ih he
      omega

/-- A run that is right about the headers shows that all bodies are inert: at the first block
that is not, the call reports a member, or fails, where there is no header. -/
theorem inert_of_exact {out : List (TarContainer σ × Option Bytes)}
    (h : Ahead C fuel c (encodeTar ms zeros)) (hrun : TarRun read fuel c out 1)
    (hends : out.map (fun o => C.rest o.1.s) = headerEnds zeros ms) : Inert ms := by
  induction ms generalizing c out with
  | nil =>
    intro o ho
    cases ho
  | cons m ms ih =>
    cases m with
    | file f =>
      obtain ⟨c1, hnext, hh, hrest, hopened, hpadding, hv, hfuel⟩ := h.file
      have hsize : c1.h.fileSize = f.content.length := by rw [hh]
      have htail : Inert ms := by
        cases hrun with
        | stop hcall hne =>
          rw [hnext] at hcall
          cases hcall
        | pass hcall hrun =>
          rw [hnext] at hcall
          cases hcall
          exact ih (.of_pass hrest hopened hpadding hsize hv hfuel) hrun (List.cons.inj hends).2
        | drain hcall hopen hd hrun =>
          rw [hnext] at hcall
          cases hcall
          exact ih (Ahead.of_drain hrest hpadding hsize hv hfuel hopen hd).2 hrun
            (List.cons.inj hends).2
      intro o ho
      rcases List.mem_cons.mp ho with heq | ho
      · cases heq
      · exact htail o ho
    | link l =>
      obtain ⟨c1, hnext, hh, hrest, hopened, hahead⟩ := h.link
      have htail : Inert ms := by
        cases hrun with
        | stop hcall hne =>
          rw [hnext] at hcall
          cases hcall
        | pass hcall hrun =>
          rw [hnext] at hcall
          cases hcall
          exact ih hahead hrun (List.cons.inj hends).2
        | drain hcall hopen _ _ =>
          rw [hnext] at hcall
          cases hcall
          simp [openTarFile, hopened] at hopen
      intro o ho
      rcases List.mem_cons.mp ho with heq | ho
      · cases heq
      · exact htail o ho
    | other o =>
      have hbody := tarScan_body
        (by rw [List.length_append]; exact o.aligned) (encodeTar ms zeros)
      by_cases hinert : InertBody (o.content ++ o.padding)
      · have htail := ih (h.of_other hinert) hrun hends
        intro o' ho'
        rcases List.mem_cons.mp ho' with heq | ho'
        · cases heq
          exact hinert
        · exact htail o' ho'
      · obtain ⟨t, rest, hscan⟩ := hbody.2 hinert
        obtain ⟨s, hnext, hv, hrest, -⟩ := h.header ((tarScan_other o ms zeros).trans hscan)
        -- the call stops inside the body, where no header of the archive ends
        have hlong : ∀ c1 : TarContainer σ, c1.s = s → ∀ got out',
            out = (c1, got) :: out' → False := by
          intro c1 hc1 got out' hout
          rw [hout, List.map_cons, hc1, hrest] at hends
          have hmem : rest ++ encodeTar ms zeros ∈ headerEnds zeros ms := by
            have : headerEnds zeros (.other o :: ms) = headerEnds zeros ms := rfl
            rw [← this, ← hends]
            exact List.mem_cons_self
          have := headerEnds_shorter hmem
          rw [List.length_append] at this
          omega
        cases hrun with
        | stop hcall hne =>
          rw [hnext] at hcall
          have hcode := congrArg Prod.fst hcall
          simp only [Option.some.injEq] at hcode
          rcases readTarHeader_code { c with padding := 0 } t with h0 | h0
          · omega
          · omega
        | @pass _ c1 out' _ hcall _ =>
          rw [hnext] at hcall
          exact (hlong c1 (congrArg (fun r => r.2.s) hcall).symm none out' rfl).elim
        | @drain _ c1 _ _ _ got out' _ hcall _ _ _ =>
          rw [hnext] at hcall
          exact (hlong c1 (congrArg (fun r => r.2.s) hcall).symm (some got) out' rfl).elim

/-! ## Archives whose other members have no body -/

theorem inert_of_empty (h : ∀ o, .other o ∈ ms → o.content = []) : Inert ms := by
  intro o ho k hk
  have hpad := o.padding_length
  rw [h o ho, List.nil_append] at hk
  simp only [tarBlockSize] at hk hpad
  omega

/-- **Decoding undoes encoding.** Over any source that keeps the read contract and holds an
archive whose other members have no body, every run of `next_tar_file` calls, whichever
regular files are opened and however their streams are read to the end, reports each
regular file and link once and in order with its stripped name, mode, size and link
target, hands over the content of the opened files, and then returns 1; and each choice
of the files to open has such a run. -/
theorem tar_round_trip (C : Contract read) (ms : List TarMember) (zeros : Nat)
    (hbody : ∀ o, .other o ∈ ms → o.content = []) {s : σ} (hv : C.valid s)
    (hrest : C.rest s = encodeTar ms zeros) {fuel : Nat}
    (hfuel : (encodeTar ms zeros).length < fuel) :
    (∀ out code, TarRun read fuel (openTar s) out code →
      code = 1 ∧ List.Forall₂ Agrees (ms.filterMap TarMember.item) out) ∧
    ∀ opens : List Bool, opens.length = (ms.filterMap TarMember.item).length →
      ∃ out, TarRun read fuel (openTar s) out 1 ∧
        List.Forall₂ (fun o b => o.2.isSome = (b && o.1.h.linkTarget.isNone)) out opens := by
  have hahead := openTar_ahead hv hrest hfuel
  have hinert := inert_of_empty hbody
  constructor
  · intro out code hrun
    obtain ⟨hcode, hall, -⟩ := run_of_inert hahead hinert hrun
    exact ⟨hcode, hall⟩
  · intro opens hlen
    exact exists_run_of_inert hahead hinert opens hlen

/-- `host/ld`, of mode 0755, with two bytes, in the form of one archiver: there are spaces behind
the numbers. -/
def plainFile : TarFile where
  info := plainInfo
  leading := []
  name := lit "host/ld"
  path := lit "ld"
  mode := [7, 5, 5]
  modeSpaces := 1
  size := [2]
  sizeSpaces := 11
  content := [104, 105]
  padding := List.replicate 510 0
  leading_length := by decide
  leading_nul := by decide
  name_length := by decide
  name_nul := by decide
  clean := by decide +kernel
  ustar h := absurd rfl h
  mode_length := by decide
  mode_fits := by decide
  size_length := by decide
  size_fits := by decide
  size_value := rfl
  padding_length := by decide +kernel
  aligned := by decide +kernel

/-- The symbolic link `host/cc` to `ld`, with `host` in the prefix field. -/
def plainLink : TarLink where
  info := { plainInfo with magic := ⟨ustarMagic, rfl⟩ }
  leading := lit "host"
  name := lit "cc"
  path := lit "cc"
  mode := zeroField 8
  size := zeroField 12
  typeflag := symType
  linkname := lit "ld"
  leading_length := by decide
  leading_nul := by decide
  name_length := by decide
  name_nul := by decide
  clean := by decide +kernel
  ustar _ := rfl
  flag := Or.inr rfl
  linkname_length := by decide
  target := by decide +kernel

/-- The directory `host/`. -/
def plainDir : TarOther where
  header := encodeHeader plainInfo [] (lit "host/") [] [] 53 []
  content := []
  padding := []
  header_length := by decide +kernel
  flag := by decide
  sized := Or.inl rfl
  padding_length := by decide
  aligned := by decide

theorem tar_round_trip_plain :
    (∀ out code, TarRun readBuffer 4096
        (openTar (openBufferStream (encodeTar [.other plainDir, .file plainFile, .link plainLink] 2)))
        out code →
      code = 1 ∧ List.Forall₂ Agrees
        [((⟨lit "ld", none, 2, 0o755⟩ : Member), some [104, 105]),
          (⟨lit "cc", some (lit "ld"), 0, 0⟩, none)] out) ∧
    ∃ out, TarRun readBuffer 4096
        (openTar (openBufferStream (encodeTar [.other plainDir, .file plainFile, .link plainLink] 2)))
        out 1 ∧
      List.Forall₂ (fun o b => o.2.isSome = (b && o.1.h.linkTarget.isNone)) out [true, false] := by
  have hbody : ∀ o, .other o ∈ [TarMember.other plainDir, .file plainFile, .link plainLink] →
      o.content = [] := by
    intro o ho
    rcases List.mem_cons.mp ho with h | h
    · cases h
      rfl
    · simp at h
  have h := tar_round_trip bufferContract [.other plainDir, .file plainFile, .link plainLink] 2
    hbody (s := openBufferStream _) trivial rfl (show _ < 4096 by decide +kernel)
  exact ⟨h.1, h.2 [true, false] rfl⟩

/-! ## Archives with bodies that the code does not know -/

/-- **Bodies read as headers.** Every run over an archive ends with 1 and reads exactly the
headers of its regular files and links if and only if no body block of a member of
another typeflag has `'0'`, `'1'` or `'2'` at offset 156. -/
theorem headers_exact_iff (C : Contract read) (ms : List TarMember) (zeros : Nat) {s : σ}
    (hv : C.valid s) (hrest : C.rest s = encodeTar ms zeros) {fuel : Nat}
    (hfuel : (encodeTar ms zeros).length < fuel) :
    (∃ out code, TarRun read fuel (openTar s) out code) ∧
    ∀ out code, TarRun read fuel (openTar s) out code →
      ((code = 1 ∧ out.map (fun o => C.rest o.1.s) = headerEnds zeros ms) ↔
        ∀ o, .other o ∈ ms → InertBody (o.content ++ o.padding)) := by
  have hahead := openTar_ahead hv hrest hfuel
  refine ⟨exists_run hv (by simpa [openTar, hrest] using hfuel), ?_⟩
  intro out code hrun
  constructor
  · rintro ⟨rfl, hends⟩
    exact inert_of_exact hahead hrun hends
  · intro hinert
    obtain ⟨hcode, -, hends⟩ := run_of_inert hahead hinert hrun
    exact ⟨hcode, hends⟩

/-- A pax header whose body is one block, of which the code makes a file `x`. -/
def paxMember : TarOther where
  header := encodeHeader plainInfo [] (lit "PaxHeader") [] (octal [1, 0, 0, 0]) 120 []
  content := encodeHeader plainInfo [] (lit "a/x") [] [] regType []
  padding := []
  header_length := by decide +kernel
  flag := by decide
  sized := by decide +kernel
  padding_length := by decide
  aligned := by decide +kernel

theorem paxMember_not_inert : ¬ InertBody (paxMember.content ++ paxMember.padding) := by
  intro h
  have h0 := h 0 (by decide +kernel)
  revert h0
  decide

theorem headers_exact_iff_pax :
    (∃ out code, TarRun readBuffer 2048
      (openTar (openBufferStream (encodeTar [.other paxMember] 1))) out code) ∧
    ∀ out code, TarRun readBuffer 2048
        (openTar (openBufferStream (encodeTar [.other paxMember] 1))) out code →
      ((code = 1 ∧ out.map (fun o => o.1.s.next) = headerEnds 1 [.other paxMember]) ↔
        ∀ o, .other o ∈ [TarMember.other paxMember] → InertBody (o.content ++ o.padding)) :=
  headers_exact_iff bufferContract [.other paxMember] 1 (s := openBufferStream _) trivial rfl
    (by decide +kernel)

/-- The body of a pax header is read as a header. -/
theorem pax_body_read_as_header :
    ∃ out code, TarRun readBuffer 2048
        (openTar (openBufferStream (encodeTar [.other paxMember] 1))) out code ∧
      ¬ (code = 1 ∧ out.map (fun o => o.1.s.next) = headerEnds 1 [.other paxMember]) := by
  have hrest : bufferContract.rest (openBufferStream (encodeTar [.other paxMember] 1)) =
      encodeTar [.other paxMember] 1 := rfl
  have hfuel : (encodeTar [.other paxMember] 1).length < 2048 := by decide +kernel
  have hahead := openTar_ahead (C := bufferContract) trivial hrest hfuel
  obtain ⟨out, code, hrun⟩ := exists_run (C := bufferContract) trivial (c := openTar _) hfuel
  refine ⟨out, code, hrun, ?_⟩
  rintro ⟨rfl, hends⟩
  exact paxMember_not_inert (inert_of_exact hahead hrun hends paxMember List.mem_cons_self)

end ToolchainTools
