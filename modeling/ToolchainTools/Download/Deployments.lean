import ToolchainTools.Download.Installs

/-!
# Deployments

Servers that answer for the urls of a manifest, over chains of at most three redirects, and send
what the catalog says supply every run that makes enough rounds (`supplied_of_stocked`). Such a run
refines its ledger (`run_refines_ledger`): it installs every url at its path
(`manifest_is_installed`), whatever the order of the lines is (`order_is_irrelevant`) and however
the lines are spread over several runs (`manifests_grow`).
-/

namespace ToolchainTools

open CLib Posix Streams Trees

variable {ζ ξ : Type}

/-! ## Supplies -/

/-- Servers that answer with a body for the url, behind redirects that `open_http_downloader`
follows. -/
inductive Offers (net : Net) (url : Bytes) : Bytes → Prop
  | chain {t : Target} {hops : List Redirect} {last : Final} (hurl : parseUrl url = some t)
      (hlength : hops.length ≤ 3) (hlast : last.Short) (hshort : ∀ r ∈ hops, r.Short)
      (hreused : NoBodyReused t hops) (hnet : net.HandsOver)
      (hserves : ServesChain net t hops last) : Offers net url last.body

/-- The world outside has what the catalog says about the url. -/
structure Stocked (nets : Nat → Net) (Z : Codec ζ) (X : XzDecoder ξ) (shop : Shop) (url : Bytes) :
    Prop where
  offered : ∀ k, Offers (nets k) url (shop.catalog url).content
  package : Package Z X url (shop.catalog url).content (shop.catalog url).leaves

/-- What runs share: the networks, the decoders and the hash; only the rounds are left open. -/
structure Within (nets : Nat → Net) (Z : Codec ζ) (X : XzDecoder ξ) (shop : Shop) (n : Nat)
    (env : Env ζ ξ) : Prop where
  net : env.net = nets
  codec : env.Z = Z
  decoder : env.X = X
  sha256 : env.sha256 = shop.sha256
  fuel : n ≤ env.fuel

section Supplies

variable {nets : Nat → Net} {Z : Codec ζ} {X : XzDecoder ξ} {shop : Shop}

theorem Offers.arrives {net : Net} {url body : Bytes} (h : Offers net url body) :
    ∃ n, ∀ fuel, n ≤ fuel → Arrives net fuel url body := by
  cases h with
  | chain hurl hlength hlast hshort hreused hnet hserves =>
    exact arrives_of_chain hurl hlength hlast hshort hreused hnet hserves

/-- Finitely many things that each hold from some number of rounds on. -/
theorem exists_rounds {ι : Type} {xs : List ι} {P : ι → Nat → Prop}
    (h : ∀ x ∈ xs, ∃ n, ∀ m, n ≤ m → P x m) : ∃ n, ∀ m, n ≤ m → ∀ x ∈ xs, P x m := by
  have heventually : ∀ᶠ m in Filter.atTop, ∀ x ∈ {x | x ∈ xs}, P x m := by
    apply (Filter.eventually_all_finite xs.finite_toSet).mpr
    intro x hx
    exact Filter.eventually_atTop.mpr (h x hx)
  exact Filter.eventually_atTop.mp heventually

/-- With enough rounds, every url that is stocked is supplied with each of the next downloads. -/
theorem supplied_of_stocked (es : List (Bytes × Bytes)) (first count : Nat) :
    ∃ n, ∀ env : Env ζ ξ, Within nets Z X shop n env → ∀ e ∈ es, Stocked nets Z X shop e.2 →
      ∀ k, first ≤ k → k < first + count → Supplied shop env k e.2 := by
  have harrives : ∀ e ∈ es, ∃ n, ∀ m, n ≤ m → Stocked nets Z X shop e.2 →
      ∀ k ∈ List.range (first + count), Arrives (nets k) m e.2 (shop.catalog e.2).content := by
    intro e _
    by_cases h : Stocked nets Z X shop e.2
    · obtain ⟨n, hn⟩ := exists_rounds fun k (_ : k ∈ List.range (first + count)) =>
        (h.offered k).arrives
      exact ⟨n, fun m hm _ => hn m hm⟩
    · exact ⟨0, fun _ _ hnot => absurd hnot h⟩
  have hunpacks : ∀ e ∈ es, ∃ n, ∀ m, n ≤ m → Stocked nets Z X shop e.2 → ∀ env : Env ζ ξ,
      env.Z = Z → env.X = X → env.fuel = m →
      Unpacks env e.2 (shop.catalog e.2).content (shop.catalog e.2).leaves := by
    intro e _
    by_cases h : Stocked nets Z X shop e.2
    · obtain ⟨n, hn⟩ := h.package.unpacks
      exact ⟨n, fun m hm _ env hZ hX hfuel => hn env hZ hX (by omega)⟩
    · exact ⟨0, fun _ _ hnot => absurd hnot h⟩
  obtain ⟨n, hn⟩ := exists_rounds harrives
  obtain ⟨n', hn'⟩ := exists_rounds hunpacks
  refine ⟨max n n', fun env henv e he hstocked k _ hk => ⟨?_, ?_⟩⟩
  · rw [henv.net]
    exact hn env.fuel ((le_max_left n n').trans henv.fuel) e he hstocked k (List.mem_range.mpr hk)
  · exact hn' env.fuel ((le_max_right n n').trans henv.fuel) e he hstocked env henv.codec
      henv.decoder rfl

end Supplies

/-! ## Deployments -/

/-- A system that represents the ledger, with a manifest that can be installed and whose urls are
stocked unless they are settled. -/
structure Deployment (nets : Nat → Net) (Z : Codec ζ) (X : XzDecoder ξ) (shop : Shop) (s : Ledger)
    (os : OS) : Prop where
  represents : Represents shop s os
  valid : ∀ line ∈ linesOf os, parseManifestLine line ≠ .invalid
  manifest : Manifest shop s (wanted os)
  stocked : ∀ e ∈ wanted os, s.done e.1 ≠ some e.2 → Stocked nets Z X shop e.2

/-- Apart from the own files the trees are the same, and both maps give the same answers. -/
structure SameHoldings (shop : Shop) (os os' : OS) : Prop where
  tree : ∀ l, (∀ n ∈ ownNames, l ≠ shop.cwd ++ [n]) → os'.fs.get l = os.fs.get l
  done : ∀ k v, query os' doneName k v = query os doneName k v
  hash : ∀ k v, query os' hashName k v = query os hashName k v

section Deployments

variable {nets : Nat → Net} {Z : Codec ζ} {X : XzDecoder ξ} {shop : Shop} {s : Ledger} {w : World}
  {es : List (Bytes × Bytes)}

theorem Represents.same {os os' : OS} (h : Represents shop s os) (h' : Represents shop s os') :
    SameHoldings shop os os' where
  tree l hl := by rw [h.tree l hl, h'.tree l hl]
  done k v := by rw [h.done.query (home_done h.home), h'.done.query (home_done h'.home)]
  hash k v := by rw [h.pins.query (home_hash h.home), h'.pins.query (home_hash h'.home)]

/-- With enough rounds, a run does what its lines do to the ledger. -/
theorem Deployment.run (h : Deployment nets Z X shop s w.os) :
    ∃ n, ∀ env : Env ζ ξ, Within nets Z X shop n env →
      (main env w).1 = (s.run shop (wanted w.os)).1 ∧
        Represents shop (s.run shop (wanted w.os)).2 (main env w).2.os := by
  obtain ⟨n, hn⟩ := supplied_of_stocked (wanted w.os) w.downloads (wanted w.os).length
  refine ⟨n, fun env henv => ?_⟩
  exact main_run h.represents h.manifest h.valid henv.sha256
    fun e he hnew => hn env henv e he (h.stocked e he hnew)

theorem run_pass (hspread : Spread es) (h : ∀ e ∈ es, Passes shop s e) :
    s.run shop es = (.exit 0, s.settleAll shop es) := by
  unfold Ledger.run
  rw [lines_pass hspread h, if_pos rfl]

/-- A run that does not pass all its lines exits with 10. -/
theorem run_exit_ten (hspread : Spread es) (h : ¬ ∀ e ∈ es, Passes shop s e) :
    (s.run shop es).1 = .exit 10 := by
  rcases @lines_cases shop s es hspread with ⟨hall, -⟩ | ⟨before, e, after, -, -, -, hrun⟩
  · exact absurd hall h
  · unfold Ledger.run
    rw [hrun, if_neg (by simp)]

/-- Behind a run that exits with 0, a line passes if it passed before. -/
theorem settleAll_passes {new : List (Bytes × Bytes)} {e : Bytes × Bytes}
    (hspread : Spread (es ++ new)) (hall : ∀ a ∈ es, Passes shop s a) (he : e ∈ es ++ new) :
    Passes shop (s.settleAll shop es) e ↔ Passes shop s e := by
  rcases List.mem_append.mp he with hold | hnew
  · exact iff_of_true (Or.inl (settleAll_done (List.pairwise_append.mp hspread).1 hold))
      (hall e hold)
  · have hne : ∀ a ∈ es, a.1 ≠ e.1 := fun a ha =>
      path_ne ((List.pairwise_append.mp hspread).2.2 a ha e hnew)
    have hfirst := (List.pairwise_append.mp hspread).1
    clear hspread he
    induction es generalizing s with
    | nil => rfl
    | cons a es ih =>
      have hpass := hall a List.mem_cons_self
      obtain ⟨hout, hrest⟩ := List.pairwise_cons.mp hfirst
      have hlater := @ih (s.settle shop a)
        (fun b hb => (settle_passes hpass (path_ne (hout b hb))).mpr (hall b (List.mem_cons_of_mem _ hb)))
        (fun b hb => hne b (List.mem_cons_of_mem _ hb)) hrest
      rw [settle_passes hpass (hne a List.mem_cons_self)] at hlater
      exact hlater

/-- Lines with unrelated paths leave a place reachable. -/
theorem settleAll_reachable {path : Bytes}
    (h : ∀ a ∈ es, Unrelated (components a.1) (components path))
    (hreach : Reachable s.tree (shop.place path)) :
    Reachable (s.settleAll shop es).tree (shop.place path) := by
  induction es generalizing s with
  | nil => exact hreach
  | cons a es ih =>
    refine @ih (s.settle shop a) (fun b hb => h b (List.mem_cons_of_mem _ hb)) ?_
    unfold Ledger.settle
    split
    · exact hreach
    · exact hreach.plant (@place_unrelated_of shop a (path, []) (h a List.mem_cons_self))

/-- A larger manifest can be installed behind a run that exits with 0. -/
theorem Deployment.grown {os os₂ : OS} {new : List (Bytes × Bytes)}
    (h : Deployment nets Z X shop s os) (hperm : (wanted os).Perm (es ++ new))
    (h₂ : Represents shop (s.settleAll shop es) os₂) (hlines : linesOf os₂ = linesOf os) :
    Deployment nets Z X shop (s.settleAll shop es) os₂ := by
  have hspread : Spread (es ++ new) := h.manifest.spread.perm hperm
  have hwanted : wanted os₂ = wanted os := congrArg wantedOf hlines
  -- what is not settled yet is new
  have hleft : ∀ e ∈ wanted os, (s.settleAll shop es).done e.1 ≠ some e.2 →
      (∀ a ∈ es, Unrelated (components a.1) (components e.1)) ∧ s.done e.1 ≠ some e.2 := by
    intro e he hnot
    rcases List.mem_append.mp (hperm.mem_iff.mp he) with hold | hnew
    · exact absurd (settleAll_done (List.pairwise_append.mp hspread).1 hold) hnot
    · have hunrelated := fun a ha => (List.pairwise_append.mp hspread).2.2 a ha e hnew
      refine ⟨hunrelated, ?_⟩
      rw [settleAll_done_ne fun a ha => path_ne (hunrelated a ha)] at hnot
      exact hnot
  refine ⟨h₂, by rw [hlines]; exact h.valid, ⟨?_, ?_, fun e he hnot => ?_⟩, fun e he hnot => ?_⟩
  · rw [hwanted]
    exact h.manifest.installable
  · rw [hwanted]
    exact h.manifest.spread
  · rw [hwanted] at he
    obtain ⟨hunrelated, hdone⟩ := hleft e he hnot
    exact settleAll_reachable hunrelated (h.manifest.reachable e he hdone)
  · rw [hwanted] at he
    exact h.stocked e he (hleft e he hnot).2

end Deployments

/-! ## Two lines -/

/-- Both urls stand for the same file. -/
def twoShop : Shop where
  cwd := [lit "w"]
  catalog _ := ⟨lit "ab", [([], .file (lit "ab") 0o644)]⟩
  sha256 content _ := UInt8.ofNat content.length

def bothLines : List (Bytes × Bytes) :=
  [(lit "a", lit "http://h/a"), (lit "d/b", lit "http://h/b")]

def twoNet : Net := chainNet ⟨false, lit "h", 80, lit "/a"⟩ [moved] found

/-- What a directory with nothing but a manifest and the file `b` stands for. -/
def bareLedger : Ledger where
  tree := (freshOS.fs.add [lit "w", lit "b"] (.file (lit "hi") 0o644)).get
  done _ := none
  pins _ := none

theorem twoNet_offers {url path : Bytes} (hurl : parseUrl url = some ⟨false, lit "h", 80, path⟩) :
    Offers twoNet url (lit "ab") := by
  have hsame : twoNet = chainNet ⟨false, lit "h", 80, path⟩ [moved] found := by
    unfold twoNet chainNet
    congr 1
    funext attempt
    cases attempt with
    | zero => rfl
    | succ n => rfl
  rw [hsame]
  exact Offers.chain hurl (by simp) moved_short.1 moved_short.2 ⟨fun _ => rfl, trivial⟩
    (chainNet_handsOver _ _ _) (chainNet_serves _ _ _)

theorem reachable_of_free {tree : Loc → Option Node} {L : Loc} (hfree : tree L = none)
    (habove : ∀ l ∈ L.dropLast.inits, tree l = none ∨ tree l = some .dir) : Reachable tree L where
  above l hpre hne := by
    refine habove l ((List.mem_inits l _).mpr ?_)
    obtain ⟨tail, rfl⟩ := hpre
    have htail : tail ≠ [] := fun hnil => hne (by rw [hnil, List.append_nil])
    rw [List.dropLast_append_of_ne_nil htail]
    exact List.prefix_append _ _
  no_link t := by
    rw [hfree]
    simp

/-- Such a directory, whatever its manifest is. -/
theorem manifestWorld_represents (m : Bytes) :
    Represents twoShop bareLedger (manifestWorld m).os := by
  have hadd : freshOS.fs.Addable [lit "w", manifestName] := by decide
  have hbare : freshOS.fs.Addable [lit "w", lit "b"] := by decide
  have hadd' : (freshOS.fs.add [lit "w", manifestName] (.file m 0o644)).Addable
      [lit "w", lit "b"] := by
    refine ⟨by simp, ?_, ?_⟩
    · rw [FS.get_add_ne _ _ (by decide)]
      decide
    · rw [FS.get_add_ne _ _ (by decide)]
      decide
  have hget : ∀ l, l ≠ [lit "w", manifestName] →
      (manifestWorld m).os.fs.get l = bareLedger.tree l := by
    intro l hl
    unfold manifestWorld bareLedger
    dsimp only
    rw [FS.get_add hadd', FS.get_add hadd, FS.get_add hbare, if_neg hl]
  have hnone : ∀ n ∈ ownNames, n ≠ manifestName → (manifestWorld m).os.fs.get [lit "w", n] = none := by
    intro n hn hne
    rw [hget _ (by simpa using hne)]
    revert n
    decide
  have hcwd : (manifestWorld m).os.fs.get [lit "w"] = some .dir := (hget _ (by decide)).trans (by decide)
  refine ⟨rfl, fun n hn => ⟨?_, hcwd, ?_⟩, fun _ => rfl, fun l hl => hget l ?_,
    ⟨[], Or.inl ⟨?_, rfl⟩, by simp, rfl⟩, ⟨[], Or.inl ⟨?_, rfl⟩, by simp, rfl⟩⟩
  · revert n
    decide
  · by_cases hmanifest : n = manifestName
    · right
      refine ⟨m, 0o644, ?_⟩
      rw [hmanifest]
      show (manifestWorld m).os.fs.get [lit "w", manifestName] = _
      exact (FS.get_add_ne _ _ (by decide)).trans ((FS.get_add hadd _ _).trans (if_pos rfl))
    · exact Or.inl (hnone n hn hmanifest)
  · exact hl manifestName (by decide)
  · exact hnone doneName (by decide) (by decide)
  · exact hnone hashName (by decide) (by decide)

theorem bothLines_installable : ∀ e ∈ bothLines, Installable twoShop e := by
  have hpaths : ∀ e ∈ bothLines, InstallPath e.1 := by decide +kernel
  have hurls : ∀ e ∈ bothLines, isHttpUrl e.2 = true := by decide
  have hentries : ∀ e ∈ bothLines, Entry e ∧ Entry (e.2, twoShop.pin e.2) := by decide +kernel
  exact fun e he => ⟨hpaths e he, hurls e he, (hentries e he).1, (hentries e he).2⟩

/-- Each manifest with some of the two lines. -/
theorem manifestWorld_deployment {m : Bytes} {es : List (Bytes × Bytes)}
    (hwanted : wanted (manifestWorld m).os = es)
    (hvalid : ∀ line ∈ linesOf (manifestWorld m).os, parseManifestLine line ≠ .invalid)
    (hes : ∀ e ∈ es, e ∈ bothLines) (hspread : Spread es) :
    Deployment (fun _ => twoNet) noCodec noXzDecoder twoShop bareLedger (manifestWorld m).os := by
  have hfree : ∀ e ∈ bothLines, bareLedger.tree (twoShop.place e.1) = none ∧
      ∀ l ∈ (twoShop.place e.1).dropLast.inits,
        bareLedger.tree l = none ∨ bareLedger.tree l = some .dir := by decide
  have hurls : ∀ e ∈ bothLines, formOf e.2 = .file ∧
      ∃ path ∈ [lit "/a", lit "/b"], parseUrl e.2 = some ⟨false, lit "h", 80, path⟩ := by decide
  rw [← hwanted] at hes hspread
  refine ⟨manifestWorld_represents m, hvalid, ⟨fun e he => bothLines_installable e (hes e he), hspread,
    fun e he _ => ?_⟩, fun e he _ => ?_⟩
  · exact reachable_of_free (hfree e (hes e he)).1 (hfree e (hes e he)).2
  · obtain ⟨hform, path, -, hparse⟩ := hurls e (hes e he)
    exact ⟨fun _ => twoNet_offers hparse, .file hform (show (lit "ab").length < 2 ^ 63 by decide)⟩

def oneWorld : World := manifestWorld (lit "a,http://h/a")

def twoWorld : World := manifestWorld (lit "a,http://h/a\nd/b,http://h/b")

def swappedWorld : World := manifestWorld (lit "d/b,http://h/b\na,http://h/a")

theorem worlds_wanted : wanted oneWorld.os = [(lit "a", lit "http://h/a")] ∧
    wanted twoWorld.os = bothLines ∧ wanted swappedWorld.os = bothLines.reverse ∧
    ∀ os ∈ [oneWorld.os, twoWorld.os, swappedWorld.os], ∀ line ∈ linesOf os,
      parseManifestLine line ≠ .invalid := by
  decide +kernel

theorem worlds_deployed : ∀ w ∈ [oneWorld, twoWorld, swappedWorld],
    Deployment (fun _ => twoNet) noCodec noXzDecoder twoShop bareLedger w.os := by
  obtain ⟨hone, htwo, hswapped, hvalid⟩ := worlds_wanted
  simp only [List.forall_mem_cons] at hvalid ⊢
  refine ⟨?_, ?_, ?_, by simp⟩
  · exact manifestWorld_deployment hone hvalid.1 (by decide) (by unfold Spread; decide)
  · exact manifestWorld_deployment htwo hvalid.2.1 (fun _ h => h) (by unfold Spread; decide)
  · exact manifestWorld_deployment hswapped hvalid.2.2.1 (by decide) (by unfold Spread; decide)

/-! ## Results -/

section Results

variable {nets : Nat → Net} {Z : Codec ζ} {X : XzDecoder ξ} {shop : Shop} {s : Ledger} {w : World}

/-- **A run refines its ledger.** With enough rounds it installs its lines one after the other and
exits with 0, or it stops at the first line whose url is pinned to another hash: the lines before
are installed, the path of this one is emptied, and it exits with 10. -/
theorem run_refines_ledger (h : Deployment nets Z X shop s w.os) :
    ∃ n, ∀ env : Env ζ ξ, Within nets Z X shop n env →
      ((∀ e ∈ wanted w.os, Passes shop s e) ∧ (main env w).1 = .exit 0 ∧
          Represents shop (s.settleAll shop (wanted w.os)) (main env w).2.os) ∨
        ∃ before e after, wanted w.os = before ++ e :: after ∧
          (∀ a ∈ before, Passes shop s a) ∧ ¬ Passes shop s e ∧ (main env w).1 = .exit 10 ∧
          Represents shop
            { s.settleAll shop before with
              tree := prune (shop.place e.1) (s.settleAll shop before).tree }
            (main env w).2.os := by
  obtain ⟨n, hn⟩ := h.run
  refine ⟨n, fun env henv => ?_⟩
  obtain ⟨hexit, hrepresents⟩ := hn env henv
  rcases @lines_cases shop s _ h.manifest.spread with
    ⟨hall, -⟩ | ⟨before, e, after, hsplit, hbefore, hnot, hrun⟩
  · left
    rw [run_pass h.manifest.spread hall] at hexit hrepresents
    exact ⟨hall, hexit, hrepresents⟩
  · right
    unfold Ledger.run at hexit hrepresents
    rw [hrun] at hexit hrepresents
    exact ⟨before, e, after, hsplit, hbefore, hnot, hexit, hrepresents⟩

theorem run_refines_ledger_two :
    ∃ n, ∀ env : Env Unit Unit, Within (fun _ => twoNet) noCodec noXzDecoder twoShop n env →
      (main env twoWorld).1 = .exit 0 ∧
      Represents twoShop (bareLedger.settleAll twoShop bothLines) (main env twoWorld).2.os := by
  obtain ⟨n, hn⟩ := run_refines_ledger (worlds_deployed twoWorld (by simp))
  refine ⟨n, fun env henv => ?_⟩
  rw [worlds_wanted.2.1] at hn
  rcases hn env henv with ⟨-, hexit, hafter⟩ | ⟨before, e, after, -, -, hnot, -⟩
  · exact ⟨hexit, hafter⟩
  · exact absurd (Or.inr (Or.inl rfl)) hnot

/-- **Installing a manifest.** When no line is settled and every url is trusted, a run with enough
rounds exits with 0. At each path there are then the leaves of its url and the directories above
them, and nothing else; `download.done` and `download.hash` say so; and what is unrelated to all
paths and no own file is as it was. -/
theorem manifest_is_installed (h : Deployment nets Z X shop s w.os)
    (hnew : ∀ e ∈ wanted w.os, s.done e.1 ≠ some e.2)
    (htrust : ∀ e ∈ wanted w.os, s.Trusts shop e.2) :
    ∃ n, ∀ env : Env ζ ξ, Within nets Z X shop n env →
      (main env w).1 = .exit 0 ∧
      (∀ e ∈ wanted w.os,
        (∀ r, (main env w).2.os.fs.get (shop.place e.1 ++ r) =
          overlay .dir (fun _ => none) (shop.catalog e.2).leaves r) ∧
        query (main env w).2.os doneName e.1 e.2 = some .matched ∧
        query (main env w).2.os hashName e.2 (shop.pin e.2) = some .matched) ∧
      ∀ l, (∀ e ∈ wanted w.os, Unrelated (shop.place e.1) l) →
        (∀ n ∈ ownNames, l ≠ shop.cwd ++ [n]) →
        (main env w).2.os.fs.get l = w.os.fs.get l := by
  obtain ⟨n, hn⟩ := h.run
  refine ⟨n, fun env henv => ?_⟩
  obtain ⟨hexit, hafter⟩ := hn env henv
  have hspread := h.manifest.spread
  rw [run_pass hspread fun e he => Or.inr (htrust e he)] at hexit hafter
  refine ⟨hexit, fun e he => ⟨fun r => ?_, ?_, ?_⟩, fun l hl hown => ?_⟩
  · have hown := @InstallPath.not_own shop.cwd (shop.place e.1 ++ r) e.1
      (h.manifest.installable e he).path (Or.inr (List.prefix_append _ r))
    exact (hafter.tree _ hown).trans (settleAll_below hspread he (hnew e he) r)
  · rw [hafter.done.query (home_done hafter.home), settleAll_done hspread he]
    exact congrArg some (answer_matched_iff.mpr rfl)
  · rw [hafter.pins.query (home_hash hafter.home), settleAll_pins hspread he (hnew e he)]
    exact congrArg some (answer_matched_iff.mpr rfl)
  · rw [hafter.tree l hown, settleAll_tree hl, h.represents.tree l hown]

theorem manifest_is_installed_two :
    ∃ n, ∀ env : Env Unit Unit, Within (fun _ => twoNet) noCodec noXzDecoder twoShop n env →
      (main env twoWorld).1 = .exit 0 ∧
      (main env twoWorld).2.os.fs.get [lit "w", lit "d", lit "b"] =
        some (.file (lit "ab") 0o644) ∧
      (main env twoWorld).2.os.fs.get [lit "w", lit "b"] = some (.file (lit "hi") 0o644) := by
  obtain ⟨n, hn⟩ := manifest_is_installed (worlds_deployed twoWorld (by simp))
    (fun _ _ => by simp [bareLedger]) fun _ _ => Or.inl rfl
  refine ⟨n, fun env henv => ?_⟩
  rw [worlds_wanted.2.1] at hn
  obtain ⟨hexit, hinstalled, hkept⟩ := hn env henv
  refine ⟨hexit, ?_, ?_⟩
  · exact ((hinstalled _ (List.mem_cons_of_mem _ List.mem_cons_self)).1 []).trans (by decide)
  · exact (hkept _ (by decide) (by decide)).trans (by decide)

/-- **Order.** Two systems that represent the same ledger, with manifests that have the same lines
in different orders, end with the same code and, if that is 0, hold the same; the networks may
differ. -/
theorem order_is_irrelevant {ζ' ξ' : Type} {nets' : Nat → Net} {Z' : Codec ζ'} {X' : XzDecoder ξ'}
    {w' : World} (h : Deployment nets Z X shop s w.os) (h' : Deployment nets' Z' X' shop s w'.os)
    (hperm : (wanted w.os).Perm (wanted w'.os)) :
    ∃ n, ∀ (env : Env ζ ξ) (env' : Env ζ' ξ'), Within nets Z X shop n env →
      Within nets' Z' X' shop n env' → (main env w).1 = (main env' w').1 ∧
      ((main env w).1 = .exit 0 → SameHoldings shop (main env w).2.os (main env' w').2.os) := by
  obtain ⟨n, hn⟩ := h.run
  obtain ⟨n', hn'⟩ := h'.run
  refine ⟨max n n', fun env env' henv henv' => ?_⟩
  obtain ⟨hexit, hafter⟩ := hn env { henv with fuel := (le_max_left n n').trans henv.fuel }
  obtain ⟨hexit', hafter'⟩ := hn' env' { henv' with fuel := (le_max_right n n').trans henv'.fuel }
  have hspread := h.manifest.spread
  have hspread' := h'.manifest.spread
  have hsame : (∀ e ∈ wanted w.os, Passes shop s e) ↔ ∀ e ∈ wanted w'.os, Passes shop s e :=
    forall_congr' fun e => by rw [hperm.mem_iff]
  by_cases hall : ∀ e ∈ wanted w.os, Passes shop s e
  · rw [run_pass hspread hall] at hexit hafter
    rw [run_pass hspread' (hsame.mp hall), ← settleAll_perm hspread hperm] at hexit' hafter'
    exact ⟨hexit.trans hexit'.symm, fun _ => hafter.same hafter'⟩
  · rw [run_exit_ten hspread hall] at hexit
    rw [run_exit_ten hspread' fun hall' => hall (hsame.mpr hall')] at hexit'
    refine ⟨hexit.trans hexit'.symm, fun hzero => ?_⟩
    rw [hexit] at hzero
    cases hzero

theorem order_is_irrelevant_two :
    ∃ n, ∀ env env' : Env Unit Unit,
      Within (fun _ => twoNet) noCodec noXzDecoder twoShop n env →
      Within (fun _ => twoNet) noCodec noXzDecoder twoShop n env' →
      (main env twoWorld).1 = (main env' swappedWorld).1 ∧
      ((main env twoWorld).1 = .exit 0 →
        SameHoldings twoShop (main env twoWorld).2.os (main env' swappedWorld).2.os) := by
  apply order_is_irrelevant (worlds_deployed twoWorld (by simp))
    (worlds_deployed swappedWorld (by simp))
  rw [worlds_wanted.2.1, worlds_wanted.2.2.1]
  exact (List.reverse_perm bothLines).symm

/-- **Growing manifests.** When a run has exited with 0 and its manifest is then replaced by one
with the same lines and more, in whatever order, the next run ends with the same code as a single
run with the new manifest would have from the start, and, if that is 0, with the same holdings. -/
theorem manifests_grow {w' : World} {new : List (Bytes × Bytes)}
    (h : Deployment nets Z X shop s w.os) (h' : Deployment nets Z X shop s w'.os)
    (hpass : ∀ e ∈ wanted w.os, Passes shop s e)
    (hperm : (wanted w'.os).Perm (wanted w.os ++ new)) :
    ∃ n, ∀ env : Env ζ ξ, Within nets Z X shop n env → (main env w).1 = .exit 0 ∧
      ∀ w₂ : World, Only [manifestName] (main env w).2.os w₂.os → linesOf w₂.os = linesOf w'.os →
        ∃ n', ∀ env' : Env ζ ξ, Within nets Z X shop n' env' →
          (main env' w₂).1 = (main env' w').1 ∧
          ((main env' w₂).1 = .exit 0 →
            SameHoldings shop (main env' w₂).2.os (main env' w').2.os) := by
  obtain ⟨n, hn⟩ := h.run
  refine ⟨n, fun env henv => ?_⟩
  obtain ⟨hexit, hafter⟩ := hn env henv
  rw [run_pass h.manifest.spread hpass] at hexit hafter
  refine ⟨hexit, fun w₂ honly hlines => ?_⟩
  have h₂ : Deployment nets Z X shop (s.settleAll shop (wanted w.os)) w₂.os :=
    h'.grown hperm (hafter.only honly (by simp [ownNames])
      (by simpa using own_ne.2.2.2.2.2.2.1.symm) (by simpa using own_ne.2.2.2.2.2.2.2.1.symm)) hlines
  have hwanted : wanted w₂.os = wanted w'.os := congrArg wantedOf hlines
  obtain ⟨n₂, hn₂⟩ := h₂.run
  obtain ⟨n₃, hn₃⟩ := h'.run
  refine ⟨max n₂ n₃, fun env' henv' => ?_⟩
  have hfuel := henv'.fuel
  obtain ⟨hexit₂, hafter₂⟩ := hn₂ env' { henv' with fuel := by omega }
  obtain ⟨hexit₃, hafter₃⟩ := hn₃ env' { henv' with fuel := by omega }
  rw [hwanted] at hexit₂ hafter₂
  have hspread := h'.manifest.spread
  have hspreadAll : Spread (wanted w.os ++ new) := hspread.perm hperm
  have hpasses : (∀ e ∈ wanted w'.os, Passes shop (s.settleAll shop (wanted w.os)) e) ↔
      ∀ e ∈ wanted w'.os, Passes shop s e :=
    forall₂_congr fun e he => settleAll_passes hspreadAll hpass (hperm.mem_iff.mp he)
  by_cases hgoes : ∀ e ∈ wanted w'.os, Passes shop s e
  · rw [run_pass hspread (hpasses.mpr hgoes), settleAll_again hspread hperm] at hexit₂ hafter₂
    rw [run_pass hspread hgoes] at hexit₃ hafter₃
    exact ⟨hexit₂.trans hexit₃.symm, fun _ => hafter₂.same hafter₃⟩
  · rw [run_exit_ten hspread fun hall => hgoes (hpasses.mp hall)] at hexit₂
    rw [run_exit_ten hspread hgoes] at hexit₃
    refine ⟨hexit₂.trans hexit₃.symm, fun hzero => ?_⟩
    rw [hexit₂] at hzero
    cases hzero

theorem manifests_grow_two :
    ∃ n, ∀ env : Env Unit Unit, Within (fun _ => twoNet) noCodec noXzDecoder twoShop n env →
      (main env oneWorld).1 = .exit 0 ∧
      ∀ w₂ : World, Only [manifestName] (main env oneWorld).2.os w₂.os →
        linesOf w₂.os = linesOf twoWorld.os →
        ∃ n', ∀ env' : Env Unit Unit,
          Within (fun _ => twoNet) noCodec noXzDecoder twoShop n' env' →
          (main env' w₂).1 = (main env' twoWorld).1 ∧
          ((main env' w₂).1 = .exit 0 →
            SameHoldings twoShop (main env' w₂).2.os (main env' twoWorld).2.os) := by
  have hperm : (wanted twoWorld.os).Perm (wanted oneWorld.os ++ [(lit "d/b", lit "http://h/b")]) := by
    rw [worlds_wanted.1, worlds_wanted.2.1]
    exact List.Perm.refl _
  exact manifests_grow (worlds_deployed oneWorld (by simp)) (worlds_deployed twoWorld (by simp))
    (fun _ _ => Or.inr (Or.inl rfl)) hperm

end Results

end ToolchainTools
