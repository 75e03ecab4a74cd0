import ToolchainTools.Download.Deletion
import ToolchainTools.Download.Ledger

/-!
# Runs refine the ledger

A system represents a ledger when its map files hold the ledger's maps and its file system, apart
from the own files of `main`, the ledger's tree (`Represents`). Deleting a path prunes the tree,
a download pins its url, unpacking plants the leaves and `update_map` ends the line, so that every
line of the manifest does to the system what `Ledger.line` does to the ledger
(`installEntry_refines`), and with it every run (`main_refines`).
-/

namespace ToolchainTools

open CLib Posix Streams Trees

variable {ζ ξ : Type} {env : Env ζ ξ}

/-! ## Paths -/

/-- A path that main can install something at: a plain one, apart from its own files. -/
structure InstallPath (path : Bytes) : Prop where
  plain : PlainPath path
  foreign : ∀ n ∈ ownNames, Unrelated (components path) [n]

instance decidableInstallPath (path : Bytes) : Decidable (InstallPath path) :=
  decidable_of_iff (PlainPath path ∧ ∀ n ∈ ownNames, Unrelated (components path) [n])
    ⟨fun h => ⟨h.1, h.2⟩, fun h => ⟨h.plain, h.foreign⟩⟩

/-- Nothing but directories is above the place, and no link is there. -/
structure Reachable (tree : Loc → Option Node) (L : Loc) : Prop where
  above : ∀ l, l <+: L → l ≠ L → tree l = none ∨ tree l = some .dir
  no_link : ∀ t, tree L ≠ some (.link t)

section Paths

variable {cwd L l : Loc} {path : Bytes} {n : Name} {os os' : OS} {tree : Loc → Option Node}

theorem InstallPath.own (h : InstallPath path) (cwd : Loc) (hn : n ∈ ownNames) :
    Unrelated (cwd ++ components path) (cwd ++ [n]) :=
  ⟨fun hpre => (h.foreign n hn).1 ((List.prefix_append_right_inj _).mp hpre),
    fun hpre => (h.foreign n hn).2 ((List.prefix_append_right_inj _).mp hpre)⟩

/-- No place above the path is an own file, nor is one below it. -/
theorem InstallPath.not_own (h : InstallPath path)
    (hl : l <+: cwd ++ components path ∨ cwd ++ components path <+: l) :
    ∀ n ∈ ownNames, l ≠ cwd ++ [n] := by
  rintro n hn rfl
  rcases hl with hpre | hpre
  · exact (h.own cwd hn).2 hpre
  · exact (h.own cwd hn).1 hpre

/-- Planting at one path leaves an unrelated one reachable. -/
theorem Reachable.plant {p : Loc} {leaves : Leaves} (h : Reachable tree L) (hp : Unrelated p L) :
    Reachable (plant .dir p leaves tree) L where
  above l hpre hne := by
    have hnot : ¬ p <+: l := fun hpl => hp.1 (hpl.trans hpre)
    rcases overlay_cases .dir (prune p tree) (shift p leaves) l with habove | ⟨e, he, rfl, -⟩ | hbase
    · exact Or.inr habove
    · obtain ⟨k, -, rfl⟩ := mem_shift.mp he
      exact absurd (List.prefix_append p k.1) hnot
    · rw [Trees.plant, hbase, prune, if_neg hnot]
      exact h.above l hpre hne
  no_link t := by
    rw [plant_unrelated hp]
    exact h.no_link t

/-! ## Deleting a plain path -/

theorem PlainPath.stripSlashes (h : PlainPath path) : OS.stripSlashes path = path := by
  obtain ⟨m, hm⟩ := OS.stripSlashes_append path
  cases m with
  | zero => simpa using hm.symm
  | succ m =>
    have hmem : [] ∈ components path := by
      have hsplit : path = (OS.stripSlashes path ++ List.replicate m slash) ++ slash :: [] := by
        rw [List.append_assoc]
        refine hm.trans ?_
        rw [List.replicate_succ']
      rw [hsplit, components_append, List.mem_append]
      exact Or.inr (by simp [components])
    exact absurd rfl (h [] hmem).1

theorem PlainPath.namesEntry (h : PlainPath path) : NamesEntry path := by
  unfold NamesEntry
  rw [h.stripSlashes]
  constructor
  · intro hlast
    exact (h _ (List.mem_of_getLast? hlast)).2.1 rfl
  · intro hlast
    exact (h _ (List.mem_of_getLast? hlast)).2.2.1 rfl

/-- A path whose place is taken leads there. -/
theorem PlainPath.locate (h : PlainPath path) {fs : FS} {node : Node}
    (hsome : fs.get (cwd ++ components path) = some node) (hlink : ∀ t, node ≠ .link t)
    (followLast : Bool) : resolve fs cwd followLast path = some (cwd ++ components path) := by
  have hplace : lexical cwd (components path) = cwd ++ components path := lexical_ordinary h cwd
  have hpaved : Paved fs cwd (components path) := by
    intro l hl
    have hpre := ((mem_way_iff h.no_dotdot).mp (Or.inl hl)).2
    rw [hplace] at hpre
    by_contra hnot
    have hne : cwd ++ components path ≠ l := by
      rintro rfl
      exact h.not_mem_way cwd hl
    rw [FS.get_eq_none_of_below hnot hpre hne] at hsome
    cases hsome
  unfold resolve
  rw [if_neg h.ne_nil, h.startOf, walk_way hpaved, hplace]
  intro _ t heq
  rw [hplace, hsome] at heq
  exact hlink t (Option.some.inj heq)

/-- **Deleting** a plain path removes what is there and nothing else. -/
theorem deletePath_plain (hquiet : Posix.Quiet os) (h : PlainPath path)
    (hreach : Reachable os.fs.get (os.cwd ++ components path)) :
    Becomes os (prune (os.cwd ++ components path) os.fs.get) (deletePath os path) := by
  have hplace : lexical os.cwd (components path) = os.cwd ++ components path :=
    lexical_ordinary h os.cwd
  have hnothing : ∀ {os' : OS}, os'.fs.get (os.cwd ++ components path) = none →
      ∀ l, os.cwd ++ components path <+: l → os'.fs.get l = none := by
    intro os' hnone l hpre
    by_cases heq : l = os.cwd ++ components path
    · rw [heq, hnone]
    · exact FS.get_eq_none_of_below (by rw [hnone]; simp) hpre heq
  cases hget : os.fs.get (os.cwd ++ components path) with
  | none =>
    have hfree : LinkFree os.fs os.cwd (components path) := by
      intro k t heq
      rw [lexical_ordinary fun c hc => h c (List.mem_of_mem_take hc)] at heq
      have hpre : os.cwd ++ (components path).take k <+: os.cwd ++ components path :=
        (List.prefix_append_right_inj _).mpr (List.take_prefix _ _)
      by_cases hend : os.cwd ++ (components path).take k = os.cwd ++ components path
      · rw [hend, hget] at heq
        cases heq
      · rcases hreach.above _ hpre hend with hnone | hdir
        · rw [hnone] at heq
          cases heq
        · rw [hdir] at heq
          cases heq
    have hmissing : ∀ T, os.locate true path = some T → os.fs.get T = none := by
      intro T hT
      unfold OS.locate resolve at hT
      rw [if_neg h.ne_nil, h.startOf] at hT
      rw [walk_lexical hfree hT, hplace, hget]
    rw [deletePath_missing hmissing]
    refine (becomes_tick os).congr fun l => ?_
    unfold prune
    split
    · rename_i hpre
      exact hnothing hget l hpre
    · rfl
  | some node =>
    have hlink : ∀ t, node ≠ .link t := by
      rintro t rfl
      exact hreach.no_link t hget
    have hlocate : os.locate false path = some (os.cwd ++ components path) :=
      h.locate hget hlink false
    have htree : OwnTreeOnly os path (deletePath os path) := by
      cases node with
      | link t => exact absurd rfl (hlink t)
      | file c m =>
        have hleaf := OS.isLeaf_of_file hget
        exact ownTree_of_update hlocate
          (deletePath_leaf hquiet (h.locate hget hlink true) hleaf hlocate hleaf)
      | dir =>
        refine ownTree_of_dir hquiet hlocate hget (by simp [components_ne_nil]) h.namesEntry ?_
        rw [h.stripSlashes]
        exact h.locate (by rw [FS.get_clear_self, hget]) hlink false
    refine ⟨goes_deletePath os path, fun l => ?_⟩
    unfold prune
    split
    · rename_i hpre
      exact hnothing (htree.gone _ hlocate) l hpre
    · rename_i hpre
      refine htree.kept l fun L hL => ?_
      rw [hlocate] at hL
      cases hL
      exact hpre

end Paths

/-! ## Systems and ledgers -/

/-- A map file that holds the finite map `m`. -/
def HoldsMap (os : OS) (file : Bytes) (m : Bytes → Option Bytes) : Prop :=
  ∃ es, Holds os file es ∧ (∀ e ∈ es, Entry e) ∧ mapOf es = m

/-- A system that works faultlessly and holds what the ledger says. -/
structure Represents (shop : Shop) (s : Ledger) (os : OS) : Prop where
  cwd : os.cwd = shop.cwd
  home : Home os
  quiet : Posix.Quiet os
  tree : ∀ l, (∀ n ∈ ownNames, l ≠ shop.cwd ++ [n]) → os.fs.get l = s.tree l
  done : HoldsMap os doneName s.done
  pins : HoldsMap os hashName s.pins

section Represents

variable {shop : Shop} {s : Ledger} {os os' : OS} {w w' : World} {path url : Bytes}

theorem HoldsMap.of_get {file : Bytes} {m : Bytes → Option Bytes} (h : HoldsMap os file m)
    (hget : os'.fs.get (os'.at file) = os.fs.get (os.at file)) : HoldsMap os' file m := by
  obtain ⟨es, hholds, hes, hmap⟩ := h
  exact ⟨es, hholds.of_get hget, hes, hmap⟩

theorem HoldsMap.testMap {file : Bytes} {m : Bytes → Option Bytes} (h : HoldsMap os file m)
    (hslot : Slot os file) (hquiet : Posix.Quiet os) (k v : Bytes) :
    testMap os file k v = (some (answer (m k) v), os.tick) := by
  obtain ⟨es, hholds, hes, rfl⟩ := h
  exact testMap_holds hslot hholds hes (hquiet _) k v

theorem HoldsMap.query {file : Bytes} {m : Bytes → Option Bytes} (h : HoldsMap os file m)
    (hslot : Slot os file) (k v : Bytes) : query os file k v = some (answer (m k) v) := by
  obtain ⟨es, hholds, hes, rfl⟩ := h
  exact query_holds hslot hholds hes k v

theorem HoldsMap.updateMap {file : Bytes} {m : Bytes → Option Bytes} (h : HoldsMap os file m)
    (hd : MapDir os file) (hquiet : Posix.Quiet os) {k v : Bytes} (he : Entry (k, v)) :
    ∃ os', updateMap os file k v = (some 0, os') ∧
      HoldsMap os' file (Function.update m k (some v)) := by
  obtain ⟨es, hholds, hes, rfl⟩ := h
  cases hupdate : ToolchainTools.updateMap os file k v with
  | mk code os1 =>
    obtain ⟨rfl, hput, -⟩ := updateMap_put hd hholds hes hupdate fun n _ _ => hquiet n
    exact ⟨os1, rfl, put es k v, hput, entry_put hes he, mapOf_put k v es⟩

namespace Represents

theorem tick (h : Represents shop s os) : Represents shop s os.tick :=
  ⟨h.cwd, h.home.only (.tick [] os), h.quiet, h.tree, h.done.of_get rfl, h.pins.of_get rfl⟩

theorem at_eq (h : Represents shop s os) (n : Name) : os.at n = shop.cwd ++ [n] := by
  unfold OS.at
  rw [h.cwd]

/-- What happens to own files is seen in the two maps only. -/
theorem maps {names : List Name} {d p : Bytes → Option Bytes} (h : Represents shop s os)
    (ho : Only names os os') (hown : ∀ n ∈ names, n ∈ ownNames) (hd : HoldsMap os' doneName d)
    (hp : HoldsMap os' hashName p) : Represents shop ⟨s.tree, d, p⟩ os' where
  cwd := ho.goes.cwd.trans h.cwd
  home := h.home.only ho
  quiet := h.quiet.of_goes ho.goes
  tree l hl := by
    rw [ho.get l fun n hn => ?_, h.tree l hl]
    rw [h.at_eq]
    exact hl n (hown n hn)
  done := hd
  pins := hp

theorem only {names : List Name} (h : Represents shop s os) (ho : Only names os os')
    (hown : ∀ n ∈ names, n ∈ ownNames) (hdone : doneName ∉ names) (hhash : hashName ∉ names) :
    Represents shop s os' :=
  h.maps ho hown (h.done.of_get (ho.get_slot hdone)) (h.pins.of_get (ho.get_slot hhash))

/-- A change of the tree outside of the own files. -/
theorem becomes {tree : Loc → Option Node} {view : Loc → Option Node} (h : Represents shop s os)
    (hb : Becomes os view os')
    (hown : ∀ n ∈ ownNames, view (os.at n) = os.fs.get (os.at n))
    (hcwd : view os.cwd = some .dir)
    (htree : ∀ l, (∀ n ∈ ownNames, l ≠ shop.cwd ++ [n]) → view l = tree l) :
    Represents shop { s with tree := tree } os' where
  cwd := hb.goes.cwd.trans h.cwd
  home := h.home.kept hb.goes
    ⟨by rw [hb.get, hcwd, (home_done h.home).cwd], fun n hn => by rw [hb.get, hown n hn]⟩
  quiet := h.quiet.of_goes hb.goes
  tree l hl := by rw [hb.get, htree l hl]
  done := h.done.of_get (by rw [hb.goes.at_eq, hb.get, hown _ (by simp [ownNames])])
  pins := h.pins.of_get (by rw [hb.goes.at_eq, hb.get, hown _ (by simp [ownNames])])

theorem reachable (h : Represents shop s os) (hpath : InstallPath path)
    (hreach : Reachable s.tree (shop.place path)) :
    Reachable os.fs.get (os.cwd ++ components path) := by
  rw [h.cwd]
  refine ⟨fun l hpre hne => ?_, fun t => ?_⟩
  · rw [h.tree l (hpath.not_own (Or.inl hpre))]
    exact hreach.above l hpre hne
  · rw [h.tree _ (hpath.not_own (Or.inl List.prefix_rfl))]
    exact hreach.no_link t

/-- Deleting the path of a line. -/
theorem deletePath (h : Represents shop s os) (hpath : InstallPath path)
    (hreach : Reachable s.tree (shop.place path)) :
    Represents shop { s with tree := prune (shop.place path) s.tree }
      (ToolchainTools.deletePath os path) := by
  have hb := deletePath_plain h.quiet hpath.plain (h.reachable hpath hreach)
  refine h.becomes hb (fun n hn => ?_) ?_ fun l hl => ?_
  · unfold prune OS.at
    rw [if_neg (hpath.own os.cwd hn).1]
  · unfold prune
    rw [if_neg, (home_done h.home).cwd]
    intro hpre
    have := hpre.length_le
    have hpos := List.length_pos_iff.mpr (components_ne_nil path)
    rw [List.length_append] at this
    omega
  · unfold prune
    rw [h.cwd, h.tree l hl]
    rfl

/-- Behind a deletion the site of the line is free. -/
theorem site {tree : Loc → Option Node}
    (h : Represents shop { s with tree := prune (shop.place path) tree } os)
    (hpath : InstallPath path) (hreach : Reachable tree (shop.place path)) :
    Site os.fs (os.cwd ++ components path) := by
  rw [h.cwd]
  have hfree : os.fs.get (shop.cwd ++ components path) = none := by
    rw [h.tree _ (hpath.not_own (Or.inl List.prefix_rfl))]
    exact if_pos List.prefix_rfl
  refine ⟨hfree, fun l hpre => ?_⟩
  by_cases heq : l = shop.cwd ++ components path
  · rw [heq]
    exact Or.inl hfree
  · rw [h.tree l (hpath.not_own (Or.inl hpre))]
    unfold prune
    dsimp only
    split
    · exact Or.inl rfl
    · exact hreach.above l hpre heq

/-- A trusted url is fetched and pinned; any other one ends the run. -/
theorem fetch (h : Represents shop s w.os) (hhttp : isHttpUrl url = true)
    (he : Entry (url, shop.pin url)) (hsha : env.sha256 = shop.sha256)
    (harrives : Arrives (env.net w.downloads) env.fuel url (shop.catalog url).content) :
    (s.Trusts shop url → ∃ w', ToolchainTools.fetch env w url =
        (.next, some (.ofBytes (shop.catalog url).content), w') ∧
      Represents shop { s with pins := Function.update s.pins url (some (shop.pin url)) } w'.os) ∧
    (¬ s.Trusts shop url → ∃ w', ToolchainTools.fetch env w url = (.exit 10, none, w') ∧
      Represents shop s w'.os) := by
  obtain ⟨es, hholds, hes, hmap⟩ := h.pins
  have hlookup : es.lookup url = s.pins url := congrFun hmap url
  have hpin : hashText (env.sha256 (shop.catalog url).content) = shop.pin url := by
    rw [hsha]
    rfl
  have hfetch : ToolchainTools.fetch env w url = fetchHttp env w url := if_pos hhttp
  obtain ⟨hpass, hstop⟩ :=
    fetchHttp_arrives h.home h.quiet hholds hes (by rw [hpin]; exact he) harrives
  have honly := only_fetchHttp env h.home url
  have hown : ∀ n ∈ fetchNames, n ∈ ownNames := by decide
  have hdone := h.done.of_get (honly.get_slot done_not_mem_fetchNames.1)
  rw [hpin, hlookup] at hpass
  rw [hpin] at hstop
  rw [hfetch]
  constructor
  · intro htrust
    obtain ⟨w', es', hrun, hholds', hes', hmap'⟩ := hpass htrust
    rw [hmap] at hmap'
    rw [hrun] at honly hdone
    exact ⟨w', hrun, h.maps honly hown hdone ⟨es', hholds', hes', hmap'⟩⟩
  · intro htrust
    unfold Ledger.Trusts at htrust
    rw [not_or] at htrust
    obtain ⟨v, hv⟩ := Option.ne_none_iff_exists'.mp htrust.1
    have hne : v ≠ shop.pin url := by
      rintro rfl
      exact htrust.2 hv
    obtain ⟨w', hrun, hholds'⟩ := hstop v (hlookup.trans hv) hne
    rw [hrun] at honly hdone
    exact ⟨w', hrun, h.maps honly hown hdone ⟨es, hholds', hes, hmap⟩⟩

/-- Unpacking plants the leaves. -/
theorem unpack {content : Bytes} {leaves : Leaves} {tree : Loc → Option Node}
    (h : Represents shop { s with tree := prune (shop.place path) tree } os)
    (hpath : InstallPath path) (hreach : Reachable tree (shop.place path))
    (hunpacks : Unpacks env url content leaves) :
    ∃ os', ToolchainTools.unpack env os path url (.ofBytes content) = (.next, os') ∧
      Represents shop { s with tree := plant .dir (shop.place path) leaves tree } os' := by
  obtain ⟨os', hunpack, hb⟩ := hunpacks os path h.quiet hpath.plain (home_done h.home).cwd
    (h.site hpath hreach)
  refine ⟨os', hunpack, h.becomes hb (fun n hn => ?_) ?_ fun l hl => ?_⟩
  · apply overlay_base
    intro e he hpre
    exact ((hpath.own os.cwd hn).symm.shift e he).1 hpre
  · rcases overlay_cases .dir os.fs.get (shift (os.cwd ++ components path) leaves) os.cwd with
      habove | ⟨e, he, heq, -⟩ | hbase
    · exact habove
    · obtain ⟨k, -, rfl⟩ := mem_shift.mp he
      have hlength := congrArg List.length heq
      have hpos := List.length_pos_iff.mpr (components_ne_nil path)
      simp only [List.length_append] at hlength
      omega
    · rw [hbase]
      exact (home_done h.home).cwd
  · unfold plant overlay
    rw [h.tree l hl, h.cwd]
    rfl

/-- The end of a line. -/
theorem recordLine (h : Represents shop s w.os) (he : Entry (path, url)) :
    ∃ w', ToolchainTools.recordLine w path url = (.next, w') ∧
      Represents shop { s with done := Function.update s.done path (some url) } w'.os := by
  obtain ⟨os', hupdate, hmap⟩ := h.done.updateMap h.home.doneDir h.quiet he
  have honly := only_updateMap path url h.home.doneDir
  rw [hupdate] at honly
  refine ⟨{ w with os := os' }, ?_, h.maps honly (by decide) hmap
    (h.pins.of_get (honly.get_slot (by simpa using ⟨own_ne.2.1, own_ne.2.2.1.symm⟩)))⟩
  unfold ToolchainTools.recordLine
  rw [hupdate]
  rfl

end Represents

/-! ## Lines -/

/-- A line that `main` can install and both map files can keep. -/
structure Installable (shop : Shop) (e : Bytes × Bytes) : Prop where
  path : InstallPath e.1
  http : isHttpUrl e.2 = true
  entry : Entry e
  pin : Entry (e.2, shop.pin e.2)

/-- What the url stands for arrives with the download of this number and is unpacked. -/
structure Supplied (shop : Shop) (env : Env ζ ξ) (number : Nat) (url : Bytes) : Prop where
  arrives : Arrives (env.net number) env.fuel url (shop.catalog url).content
  unpacks : Unpacks env url (shop.catalog url).content (shop.catalog url).leaves

theorem fetch_downloads (env : Env ζ ξ) (w : World) (url : Bytes) :
    (fetch env w url).2.2.downloads = w.downloads ∨
      (fetch env w url).2.2.downloads = w.downloads + 1 := by
  have hhttp : (fetchHttp env w url).2.2.downloads = w.downloads + 1 := by
    unfold fetchHttp
    dsimp only
    repeat' split
    all_goals rfl
  unfold fetch
  split
  · exact Or.inr hhttp
  · left
    dsimp only
    repeat' split
    all_goals rfl

theorem recordLine_downloads (w : World) (path url : Bytes) :
    (recordLine w path url).2.downloads = w.downloads := by
  unfold recordLine
  split <;> rfl

theorem answer_matched_iff {current : Option Bytes} {v : Bytes} :
    answer current v = .matched ↔ current = some v := by
  unfold answer
  split
  · simp
  · rename_i found
    by_cases heq : found = v
    · simp [heq]
    · simp [heq]

/-- A line behind the question of whether it has been done, and behind the download. -/
theorem installEntry_fetched {a : MapAnswer} {f : CFile} {w2 : World} (hne : a ≠ .matched)
    (htest : testMap w.os doneName path url = (some a, w.os.tick))
    (hfetch : fetch env (World.act { w with os := deletePath w.os.tick path } (.delete path)) url =
      (.next, some f, w2)) : installEntry env w path url = installFile env w2 path url f := by
  unfold installEntry
  rw [htest]
  cases a with
  | matched => exact absurd rfl hne
  | noval =>
    dsimp only
    rw [hfetch]
  | mismatch =>
    dsimp only
    rw [hfetch]

theorem installEntry_stopped {a : MapAnswer} {code : Int} {w2 : World} (hne : a ≠ .matched)
    (htest : testMap w.os doneName path url = (some a, w.os.tick))
    (hfetch : fetch env (World.act { w with os := deletePath w.os.tick path } (.delete path)) url =
      (.exit code, none, w2)) : installEntry env w path url = (.exit code, w2) := by
  unfold installEntry
  rw [htest]
  cases a with
  | matched => exact absurd rfl hne
  | noval =>
    dsimp only
    rw [hfetch]
  | mismatch =>
    dsimp only
    rw [hfetch]

/-- The file of a line is unpacked, `download.tmp` is removed and the line is recorded. -/
theorem Represents.installFile {content : Bytes} {leaves : Leaves} {tree : Loc → Option Node}
    (h : Represents shop { s with tree := prune (shop.place path) tree } w.os)
    (hpath : InstallPath path) (hreach : Reachable tree (shop.place path))
    (hunpacks : Unpacks env url content leaves) (he : Entry (path, url)) :
    ∃ w', ToolchainTools.installFile env w path url (.ofBytes content) = (.next, w') ∧
      Represents shop
        { s with
          tree := plant .dir (shop.place path) leaves tree
          done := Function.update s.done path (some url) } w'.os ∧
      w'.downloads = w.downloads := by
  obtain ⟨os1, hunpack, h1⟩ := h.unpack hpath hreach hunpacks
  have honly := (home_tmp h1.home).only_unlink
  have h2 := h1.only honly (by simp [ownNames]) (by simpa using own_ne.2.2.2.1)
    (by simpa using own_ne.2.2.2.2.1)
  let w2 : World := ⟨os1.unlink tmpName, w.downloads,
    .extracted path url :: .extract path url content :: w.acts⟩
  obtain ⟨w', hrecord, h'⟩ := @Represents.recordLine shop _ w2 path url h2 he
  refine ⟨w', ?_, h', ?_⟩
  · unfold ToolchainTools.installFile
    dsimp only
    rw [show (World.act w (.extract path url (CFile.ofBytes content).content)).os = w.os from rfl,
      hunpack]
    exact hrecord
  · have hsame := recordLine_downloads w2 path url
    rw [hrecord] at hsame
    exact hsame

/-- **A line** does to the system what it does to the ledger. -/
theorem installEntry_refines {e : Bytes × Bytes} (h : Represents shop s w.os)
    (he : Installable shop e) (hsha : env.sha256 = shop.sha256)
    (hsupplied : s.done e.1 ≠ some e.2 → Supplied shop env w.downloads e.2)
    (hreach : s.done e.1 ≠ some e.2 → Reachable s.tree (shop.place e.1)) :
    ∃ w', installEntry env w e.1 e.2 = ((s.line shop e).1, w') ∧
      Represents shop (s.line shop e).2 w'.os ∧
        (w'.downloads = w.downloads ∨ w'.downloads = w.downloads + 1) := by
  have htest := h.done.testMap (home_done h.home) h.quiet e.1 e.2
  unfold Ledger.line
  by_cases hdone : s.done e.1 = some e.2
  · rw [answer_matched_iff.mpr hdone] at htest
    rw [if_pos hdone]
    refine ⟨{ w with os := w.os.tick }, ?_, h.tick, Or.inl rfl⟩
    unfold installEntry
    rw [htest]
  · rw [if_neg hdone]
    have hne : answer (s.done e.1) e.2 ≠ .matched := fun hmatched =>
      hdone (answer_matched_iff.mp hmatched)
    -- the path is deleted before anything is fetched
    let w1 := World.act { w with os := deletePath w.os.tick e.1 } (.delete e.1)
    have h1 : Represents shop { s with tree := prune (shop.place e.1) s.tree } w1.os :=
      h.tick.deletePath he.path (hreach hdone)
    obtain ⟨hpass, hstop⟩ := @Represents.fetch ζ ξ env shop _ w1 e.2 h1 he.http he.pin hsha
      (hsupplied hdone).arrives
    have hcount := fetch_downloads env w1 e.2
    by_cases htrust : s.Trusts shop e.2
    · rw [if_pos htrust]
      obtain ⟨w2, hfetch, h2⟩ := hpass htrust
      let pinned := { s with pins := Function.update s.pins e.2 (some (shop.pin e.2)) }
      obtain ⟨w3, hinstall, h3, hsame⟩ := @Represents.installFile ζ ξ env shop pinned w2 e.1 e.2 _ _ _
        h2 he.path (hreach hdone) (hsupplied hdone).unpacks he.entry
      rw [hfetch] at hcount
      refine ⟨w3, (installEntry_fetched hne htest hfetch).trans hinstall, h3, ?_⟩
      rw [hsame]
      exact hcount
    · rw [if_neg htrust]
      obtain ⟨w2, hfetch, h2⟩ := hstop htrust
      rw [hfetch] at hcount
      exact ⟨w2, installEntry_stopped hne htest hfetch, h2, hcount⟩

/-! ## Runs -/

/-- All lines can be installed at unrelated paths, and nothing but directories leads to those that
are not settled yet. -/
structure Manifest (shop : Shop) (s : Ledger) (es : List (Bytes × Bytes)) : Prop where
  installable : ∀ e ∈ es, Installable shop e
  spread : Spread es
  reachable : ∀ e ∈ es, s.done e.1 ≠ some e.2 → Reachable s.tree (shop.place e.1)

/-- Behind a line that is gone beyond, the other lines are as they were. -/
theorem line_later {e e' : Bytes × Bytes} (hspread : Unrelated (components e.1) (components e'.1))
    (hnext : (s.line shop e).1 = .next) :
    ((s.line shop e).2.done e'.1 = s.done e'.1) ∧
      (Reachable s.tree (shop.place e'.1) →
        Reachable (s.line shop e).2.tree (shop.place e'.1)) := by
  unfold Ledger.line at hnext ⊢
  split at hnext
  · rename_i hdone
    rw [if_pos hdone]
    exact ⟨rfl, id⟩
  · rename_i hdone
    rw [if_neg hdone]
    split at hnext
    · rename_i htrust
      rw [if_pos htrust]
      exact ⟨Function.update_of_ne (path_ne hspread).symm ..,
        fun hreach => hreach.plant (place_unrelated_of hspread)⟩
    · cases hnext

theorem mainLoop_refines {lines : List Bytes} (h : Represents shop s w.os)
    (hmanifest : Manifest shop s (wantedOf lines))
    (hvalid : ∀ line ∈ lines, parseManifestLine line ≠ .invalid) (hsha : env.sha256 = shop.sha256)
    (hsupplied : ∀ e ∈ wantedOf lines, s.done e.1 ≠ some e.2 → ∀ k, w.downloads ≤ k →
      k < w.downloads + (wantedOf lines).length → Supplied shop env k e.2) :
    ∃ w', mainLoop env w lines = ((s.lines shop (wantedOf lines)).1, w') ∧
      Represents shop (s.lines shop (wantedOf lines)).2 w'.os := by
  induction lines generalizing w s with
  | nil => exact ⟨w, rfl, h⟩
  | cons line lines ih =>
    have hvalid' : ∀ l ∈ lines, parseManifestLine l ≠ .invalid :=
      fun l hl => hvalid l (List.mem_cons_of_mem _ hl)
    cases hparse : parseManifestLine line with
    | invalid => exact absurd hparse (hvalid line List.mem_cons_self)
    | skip =>
      have hnone : entryOf line = none := by
        unfold entryOf
        rw [hparse]
      rw [wantedOf, List.filterMap_cons_none hnone, ← wantedOf] at hmanifest hsupplied ⊢
      obtain ⟨w', hrun, h'⟩ := ih h hmanifest hvalid' hsupplied
      refine ⟨w', ?_, h'⟩
      unfold mainLoop mainLine
      rw [hparse]
      exact hrun
    | entry path url =>
      have hsome : entryOf line = some (path, url) := entryOf_eq_some.mpr hparse
      rw [wantedOf, List.filterMap_cons_some hsome, ← wantedOf] at hmanifest hsupplied ⊢
      obtain ⟨hfirst, hrest⟩ := List.pairwise_cons.mp hmanifest.spread
      have hlength : ((path, url) :: wantedOf lines).length = (wantedOf lines).length + 1 := rfl
      obtain ⟨w1, hinstall, h1, hcount⟩ := installEntry_refines h
        (hmanifest.installable _ List.mem_cons_self) hsha
        (fun hnew => hsupplied _ List.mem_cons_self hnew w.downloads le_rfl (by omega))
        (hmanifest.reachable _ List.mem_cons_self)
      have hline : mainLine env w line = ((s.line shop (path, url)).1, w1) := by
        unfold mainLine
        rw [hparse]
        exact hinstall
      unfold Ledger.lines
      by_cases hnext : (s.line shop (path, url)).1 = .next
      · rw [if_pos hnext]
        have hlater : Manifest shop (s.line shop (path, url)).2 (wantedOf lines) :=
          ⟨fun e he => hmanifest.installable e (List.mem_cons_of_mem _ he), hrest,
            fun e he hnew => (line_later (hfirst e he) hnext).2
              (hmanifest.reachable e (List.mem_cons_of_mem _ he)
                ((line_later (hfirst e he) hnext).1 ▸ hnew))⟩
        obtain ⟨w', hrun, h'⟩ := ih h1 hlater hvalid' fun e he hnew k hk hlt =>
          hsupplied e (List.mem_cons_of_mem _ he) ((line_later (hfirst e he) hnext).1 ▸ hnew) k
            (by omega) (by omega)
        refine ⟨w', ?_, h'⟩
        unfold mainLoop
        rw [hline, hnext]
        exact hrun
      · rw [if_neg hnext]
        refine ⟨w1, ?_, h1⟩
        unfold mainLoop
        rw [hline]
        generalize (s.line shop (path, url)).1 = outcome at hnext
        cases outcome with
        | next => exact absurd rfl hnext
        | exit | crash | running => rfl

/-- Reading the manifest, which may have to be made first. -/
theorem Represents.openManifest (h : Represents shop s w.os) :
    ∃ os1, ToolchainTools.openManifest w = (.ok (manifestOf w.os), { w with os := os1 }) ∧
      Represents shop s os1 := by
  obtain ⟨es, hholds, hes, -⟩ := h.done
  have hready : Ready w.os es := ⟨h.home, h.quiet, hholds, hes⟩
  rcases (home_manifest h.home).plain with hfree | ⟨c, m, hfile⟩
  · obtain ⟨os1, hopen, honly, -⟩ := openManifest_missing hready hfree
    have hempty : manifestOf w.os = [] := by
      unfold manifestOf
      rw [hfree]
    rw [hempty]
    exact ⟨os1, hopen, h.only honly (by simp [ownNames])
      (by simpa using own_ne.2.2.2.2.2.2.1.symm) (by simpa using own_ne.2.2.2.2.2.2.2.1.symm)⟩
  · have hcontent : manifestOf w.os = c := by
      unfold manifestOf
      rw [hfile]
    rw [hcontent]
    exact ⟨w.os.tick.tick, openManifest_file hready hfile, h.tick.tick⟩

/-- **A run** does to the system what the lines of its manifest do to the ledger. -/
theorem main_run (h : Represents shop s w.os) (hmanifest : Manifest shop s (wanted w.os))
    (hvalid : ∀ line ∈ linesOf w.os, parseManifestLine line ≠ .invalid)
    (hsha : env.sha256 = shop.sha256)
    (hsupplied : ∀ e ∈ wanted w.os, s.done e.1 ≠ some e.2 → ∀ k, w.downloads ≤ k →
      k < w.downloads + (wanted w.os).length → Supplied shop env k e.2) :
    (main env w).1 = (s.run shop (wanted w.os)).1 ∧
      Represents shop (s.run shop (wanted w.os)).2 (main env w).2.os := by
  obtain ⟨os1, hopen, h1⟩ := h.openManifest
  obtain ⟨w', hloop, h'⟩ := @mainLoop_refines ζ ξ env shop s { w with os := os1 } (linesOf w.os) h1
    hmanifest hvalid hsha hsupplied
  unfold main Ledger.run wanted
  rw [hopen]
  dsimp only
  rw [show manifestLines (cstr (manifestOf w.os)) = linesOf w.os from rfl, hloop]
  generalize (s.lines shop (wantedOf (linesOf w.os))).1 = outcome
  cases outcome with
  | next => exact ⟨rfl, h'⟩
  | exit | crash | running => exact ⟨rfl, h'⟩

end Represents

end ToolchainTools
