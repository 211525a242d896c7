import CBuild.Proofs.Manifest.Reediting
import CBuild.Proofs.Project.Writing
import CBuild.Proofs.Source.Unread

/-! Generating once more. The configuration is the only file that the first time changes, so the second time finds the
same sources, and the edit of the edited text writes what is there. -/

namespace CBuild

open CBuild.Action Machine FileTree Source Watched

variable {m n : Machine} {l : Location} {b c : Bytes} {x y : Bool}

theorem Machine.leads_of_readText {p : Path} {text : String} (h : (Files.readText p).on m = (.ok text, m)) :
    ∃ l b, m.tree.Leads m.here p l b := by
  rw [on_readText_eq, Prod.mk.injEq] at h
  obtain ⟨h, -⟩ := h
  rcases hfind : m.tree.find m.here p with e | ⟨l, ⟨b, x⟩ | target | _⟩
  · simp [readFile, hfind, bind, Except.bind] at h
  · obtain ⟨hplace, hl⟩ := find_eq_ok_iff.1 hfind
    exact ⟨l, b, hplace, x, hl⟩
  all_goals simp [readFile, hfind, bind, Except.bind] at h

namespace Project

variable {pr : Project} {config entry : Path} {r : Except Failure (Source.Discovery × Path)}

theorem cases_of_generate_back (hl : m.tree.Leads m.here config l b)
    (h : (pr.generate config entry none).on m = (r, n)) :
    (∃ e, r = .error e) ∧ n.tree = m.tree ∧ n.here = m.here ∨
      ∃ found before after, r = .ok (found, config) ∧ ((Source.discover pr.root entry).on m).1 = .ok found ∧
        (Files.readText config).on m = (.ok before, m) ∧
        replaceLists? before.toList (listsOf found).toChars = some after ∧
        m.tree.writeFile m.here config (Utf8.encode (String.ofList after)) = .ok n.tree ∧ n.here = m.here := by
  rcases cases_of_generate h with hfail | ⟨_, found, before, k, hload, hfound, hread, ⟨htree, hhere⟩, hput⟩
  · exact .inl hfail
  · rw [putLists] at hput
    cases hafter : replaceLists? before.toList (listsOf found).toChars with
    | none =>
      rw [hafter] at hput
      cases hput
      exact .inl ⟨⟨_, rfl⟩, htree, hhere⟩
    | some after =>
      rw [hafter] at hput
      obtain ⟨hext, -⟩ := Manifest.parse_of_load hload hread
      obtain ⟨name, hname⟩ := Manifest.exists_fileName hext
      obtain ⟨t, ht, -⟩ := hl.exists_writeFile (Utf8.encode (String.ofList after))
      rw [← htree, ← hhere] at hl
      have hparent : k.tree.ParentFound k.here config := hl.parentFound hname
      have hwrite : k.tree.writeFile k.here config (Utf8.encode (String.ofList after)) = .ok t := by
        rw [htree, hhere, ht]
      replace hput := (on_bind_ok (on_writeText hparent hwrite)).symm.trans hput
      cases hput
      exact .inr ⟨found, before, after, rfl, hfound, hread, hafter, ht, hhere⟩

/-- Generating in place leaves all as it is when the text that would be written is the one that is there. -/
theorem unchanged_of_generate (hl : m.tree.Leads m.here config l b)
    (hsame : ∀ found before after, ((Source.discover pr.root entry).on m).1 = .ok found →
      (Files.readText config).on m = (.ok before, m) →
      replaceLists? before.toList (listsOf found).toChars = some after →
      kept l (Utf8.encode (String.ofList after)) = b)
    (h : (pr.generate config entry none).on m = (r, n)) :
    (∀ k, n.tree.get? k = m.tree.get? k) ∧ n.here = m.here := by
  rcases cases_of_generate_back hl h with ⟨-, htree, hhere⟩ | ⟨found, before, after, -, hfound, hread, hafter, hw, hhere⟩
  · exact ⟨fun k => by rw [htree], hhere⟩
  · obtain ⟨t, ht, -, hne, hself⟩ := hl.exists_writeFile (Utf8.encode (String.ofList after))
    cases hw.symm.trans ht
    refine ⟨fun k => ?_, hhere⟩
    by_cases hk : k = l
    · obtain ⟨x, hx⟩ := hl.file
      rw [hk, hself x hx, hx, hsame found before after hfound hread hafter]
    · exact hne k hk

variable {k : Machine} {found : Source.Discovery} {target : Path} {content : String} {c : Manifest}

theorem nodup_keys_listsOf (found : Source.Discovery) : ((listsOf found).toChars.map Prod.fst).Nodup := by
  have hkeys : (listsOf found).toChars.map Prod.fst = ["includes".toList, "files".toList] := by
    simp [listsOf, Manifest.Lists.toChars]
  rw [hkeys]
  decide

theorem exists_generate {edited : List Char} (hload : (Manifest.load config).on m = (.ok c, m))
    (hl : m.tree.Leads m.here config l (Utf8.encode content))
    (hfound : ((Source.discover pr.root entry).on m).1 = .ok found)
    (hedited : replaceLists? content.toList (listsOf found).toChars = some edited) :
    ∃ n, (pr.generate config entry none).on m = (.ok (found, config), n) := by
  obtain ⟨k, hk⟩ : ∃ k, (Source.discover pr.root entry).on m = (.ok found, k) := ⟨_, Prod.ext hfound rfl⟩
  obtain ⟨hext, -⟩ := Manifest.parse_of_load hload (on_readText hl)
  obtain ⟨name, hname⟩ := Manifest.exists_fileName hext
  obtain ⟨htree, hhere⟩ := (asks_discover pr.root entry).of_on hk
  rw [← htree, ← hhere] at hl
  obtain ⟨t, ht, -⟩ := hl.exists_writeFile (Utf8.encode (String.ofList edited))
  have hwrite := on_writeText (hl.parentFound hname) ht
  rw [generate_eq, on_bind_ok hload, on_bind_ok hk, on_bind_ok (on_readText hl), putLists, hedited]
  exact ⟨_, on_bind_ok hwrite⟩

/-- What generating in place has left when it succeeds: the configuration holds the edited text, or keeps nothing, the same
sources are found, and the edit of the text is the text. -/
structure Settled (pr : Project) (config entry : Path) (found : Source.Discovery) (content : String) (n : Machine)
    (l : Location) (text : String) : Prop where
  leads : n.tree.Leads n.here config l (Utf8.encode text)
  edits : text = "" ∨ replaceLists? content.toList (listsOf found).toChars = some text.toList
  finds : ((Source.discover pr.root entry).on n).1 = .ok found
  again : ∃ after, replaceLists? text.toList (listsOf found).toChars = some after ∧
    kept l (Utf8.encode (String.ofList after)) = Utf8.encode text

theorem exists_settled (hn : m.tree.Nameable) (hread : (Files.readText config).on m = (.ok content, m))
    (hapart : editsApart content.toList (listsOf found).toChars = true)
    (hunread : ∀ p ∈ readsOf (Source.discover pr.root entry) m, ∀ l b c, m.tree.Leads m.here config l b →
      ¬m.tree.Leads m.here p l c)
    (hfirst : (pr.generate config entry none).on m = (.ok (found, target), n)) :
    target = config ∧ ∃ l text, pr.Settled config entry found content n l text := by
  obtain ⟨l, b, hl⟩ := leads_of_readText hread
  rcases cases_of_generate_back hl hfirst with ⟨⟨e, he⟩, -⟩ | ⟨_, _, after, hok, hfound, hread', hafter, hw, hhere⟩
  · cases he
  · cases hok
    cases hread.symm.trans hread'
    obtain ⟨t, ht, hleads, hne, -⟩ := hl.exists_writeFile (Utf8.encode (String.ofList after))
    cases hw.symm.trans ht
    rw [← hhere] at hleads
    obtain ⟨x, hx⟩ := hl.file
    obtain ⟨y, hy⟩ := hleads.file
    have hfinds := discover_of_unread hn hx hy hne hhere (fun p hp => hunread p hp l b b hl) hfound
    refine ⟨rfl, l, ?_⟩
    by_cases hreal : l = nowhere
    · have hstrict : Toml.Document.strict? "".toList = some ⟨[], []⟩ :=
        Toml.Document.strict?_eq_some.2 ⟨[], [], [], Toml.Statement.readAll?_of_trivia rfl, rfl, rfl, rfl⟩
      obtain ⟨edited, hedited, -⟩ := parse_lists found hstrict Manifest.parse_empty rfl
      have hnothing (c : Bytes) : kept l c = Utf8.encode "" := if_pos hreal
      rw [hnothing] at hleads
      exact ⟨"", hleads, .inl rfl, hfinds, edited, hedited, hnothing _⟩
    · rw [kept, if_neg hreal] at hleads
      have hagain : replaceLists? (String.ofList after).toList (listsOf found).toChars = some after := by
        rw [String.toList_ofList]
        exact replaceLists?_again (nodup_keys_listsOf found) hapart hafter
      refine ⟨String.ofList after, hleads, .inr ?_, hfinds, after, hagain, if_neg hreal⟩
      rw [hafter, String.toList_ofList]

theorem Settled.unchanged {text : String} (h : pr.Settled config entry found content n l text)
    (hagain : (pr.generate config entry none).on n = (r, k)) : (∀ l, k.tree.get? l = n.tree.get? l) ∧ k.here = n.here := by
  refine unchanged_of_generate h.leads (fun found' before' after' hfound' hbefore' hafter' => ?_) hagain
  obtain ⟨after, hafter, hkept⟩ := h.again
  cases h.finds.symm.trans hfound'
  cases (on_readText h.leads).symm.trans hbefore'
  cases hafter.symm.trans hafter'
  exact hkept

theorem Settled.succeeds_iff {text : String} (h : pr.Settled config entry found content n l text)
    (hagain : (pr.generate config entry none).on n = (r, k)) :
    r = .ok (found, config) ↔ ∃ c, ((Manifest.load config).on n).1 = .ok c := by
  constructor
  · rintro rfl
    rcases cases_of_generate hagain with ⟨⟨e, he⟩, -⟩ | ⟨c, -, -, -, hload, -⟩
    · cases he
    · exact ⟨c, congrArg Prod.fst hload⟩
  · rintro ⟨c, hc⟩
    obtain ⟨after, hafter, -⟩ := h.again
    obtain ⟨k', hk'⟩ := exists_generate (Prod.ext hc (Manifest.quiet_load config n)) h.leads h.finds hafter
    exact congrArg Prod.fst (hagain.symm.trans hk')

theorem Settled.exists_load {text : String} {d : Toml.Document} (h : pr.Settled config entry found content n l text)
    (hext : config.extension? = some "toml".toList) (hparse : Manifest.parse content = .ok c)
    (hd : Toml.Document.strict? content.toList = some d)
    (happart : examplesApart ((listsOf found).toChars.missing d) [] (Text.pieces content.toList) = true) :
    ∃ c, ((Manifest.load config).on n).1 = .ok c := by
  have hnew : ∃ c, Manifest.parse text = .ok c := by
    rcases h.edits with rfl | hedits
    · exact ⟨_, Manifest.parse_empty⟩
    · obtain ⟨edited, hedited, hnew⟩ := parse_lists found hd hparse happart
      rw [hedits] at hedited
      cases hedited
      rw [String.ofList_toList] at hnew
      exact ⟨_, hnew⟩
  obtain ⟨c, hc⟩ := hnew
  exact ⟨c, congrArg Prod.fst (Manifest.on_load hext h.leads hc)⟩

/-- When a text has been edited, or a configuration in place, the same edit changes nothing more. Generating succeeds once
more, with the same sources, if the configuration can still be loaded; where the examples stand between its lines it can. -/
theorem unchanged_by_second_edit (pr : Project) (config entry : Path) :
    (∀ text lists edited, (lists.map Prod.fst).Nodup → editsApart text lists = true →
      replaceLists? text lists = some edited → replaceLists? edited lists = some edited) ∧
    ∀ (target : Path) (m n k : Machine) (found : Source.Discovery) (content : String)
      (r : Except Failure (Source.Discovery × Path)), m.tree.Nameable →
      (Files.readText config).on m = (.ok content, m) →
      editsApart content.toList (listsOf found).toChars = true →
      (∀ p ∈ readsOf (Source.discover pr.root entry) m, ∀ l b c, m.tree.Leads m.here config l b →
        ¬m.tree.Leads m.here p l c) →
      (pr.generate config entry none).on m = (.ok (found, target), n) →
      (pr.generate config entry none).on n = (r, k) → (∀ l, k.tree.get? l = n.tree.get? l) ∧ k.here = n.here ∧
        (r = .ok (found, target) ↔ ∃ c, ((Manifest.load config).on n).1 = .ok c) ∧
        ∀ d, Toml.Document.strict? content.toList = some d →
          examplesApart ((listsOf found).toChars.missing d) [] (Text.pieces content.toList) = true →
          r = .ok (found, target) := by
  refine ⟨fun _ _ _ => replaceLists?_again, fun target m n k found content r hn hread hapart hunread hfirst hagain => ?_⟩
  obtain ⟨rfl, l, text, h⟩ := exists_settled hn hread hapart hunread hfirst
  obtain ⟨htree, hhere⟩ := h.unchanged hagain
  refine ⟨htree, hhere, h.succeeds_iff hagain, fun d hd happart => (h.succeeds_iff hagain).2 ?_⟩
  rcases cases_of_generate hfirst with ⟨⟨e, he⟩, -⟩ | ⟨c, -, -, -, hload, -⟩
  · cases he
  · obtain ⟨hext, hparse⟩ := Manifest.parse_of_load hload hread
    exact h.exists_load hext hparse hd happart

def commented : Machine where
  tree := .ofEntries [([Manifest.bare.chars], .file (Utf8.encode "files = [] # all\n") false),
    (["m.c".toList], .file [] false)]
  here := []

theorem unchanged_by_second_edit_commented :
    (∃ edited, replaceLists? "files = [] # all\n".toList [("files".toList, ["m.c".toList])] = some edited ∧
      replaceLists? edited [("files".toList, ["m.c".toList])] = some edited) ∧
    ∃ n, ((Project.mk dot).generate Manifest.bare (Path.ofString "m.c") none).on commented =
        (.ok (⟨[], ["m.c"]⟩, Manifest.bare), n) ∧
      ∃ k, ((Project.mk dot).generate Manifest.bare (Path.ofString "m.c") none).on n =
        (.ok (⟨[], ["m.c"]⟩, Manifest.bare), k) ∧ (∀ l, k.tree.get? l = n.tree.get? l) ∧ k.here = n.here := by
  obtain ⟨hedit, hgenerate⟩ :=
    unchanged_by_second_edit (Project.mk dot) Manifest.bare (Path.ofString "m.c")
  have hedited : replaceLists? "files = [] # all\n".toList [("files".toList, ["m.c".toList])] =
      some "files = [\"m.c\"] # all\n".toList := by cbv
  have hread : ((Files.readText Manifest.bare).on commented).1 = .ok "files = [] # all\n" := by cbv
  have hrun : (((Project.mk dot).generate Manifest.bare (Path.ofString "m.c") none).on commented).1 =
      .ok (⟨[], ["m.c"]⟩, Manifest.bare) := by cbv
  have hreads : readsOf (Source.discover dot (Path.ofString "m.c")) commented =
      [Path.ofString "./m.c"] := by cbv
  have hconfig : commented.tree.find commented.here Manifest.bare =
      .ok ([Manifest.bare.chars], .file (Utf8.encode "files = [] # all\n") false) := by cbv
  have hsource : commented.tree.find commented.here (Path.ofString "./m.c") =
      .ok (["m.c".toList], .file [] false) := by cbv
  have happart : ((Toml.Document.strict? "files = [] # all\n".toList).any fun d => examplesApart
      ((listsOf ⟨[], ["m.c"]⟩).toChars.missing d) [] (Text.pieces "files = [] # all\n".toList)) = true := by cbv
  obtain ⟨d, hd, happart⟩ := (Option.any_eq_true _ _).1 happart
  have hunread : ∀ p ∈ readsOf (Source.discover dot (Path.ofString "m.c")) commented, ∀ l b c,
      commented.tree.Leads commented.here Manifest.bare l b → ¬commented.tree.Leads commented.here p l c := by
    intro p hp l b c hl hc
    rw [hreads, List.mem_singleton] at hp
    subst hp
    obtain ⟨x, hx⟩ := hl.find
    obtain ⟨y, hy⟩ := hc.find
    rw [hconfig] at hx
    rw [hsource] at hy
    cases hx
    have hapart : ["m.c".toList] ≠ [Manifest.bare.chars] := by decide
    exact hapart (congrArg Prod.fst (Except.ok.inj hy))
  obtain ⟨hsame, hhere, -, hagain⟩ := hgenerate _ _ _ _ _ _ _ (by decide) (Prod.ext hread (quiet_readText ..)) (by cbv)
    hunread (Prod.ext hrun rfl) rfl
  exact ⟨⟨_, hedited, hedit _ _ _ (by decide) (by cbv) hedited⟩, _, Prod.ext hrun rfl, _,
    Prod.ext (hagain d hd happart) rfl, hsame, hhere⟩

end Project
end CBuild
