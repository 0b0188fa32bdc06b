import OpenViking.Wiki.CardCache

/-!
# Loading the cards of a call again

What a call of `replace` that finished leaves in the files, and when `load_validated` accepts it for the
documents and the roots of the call.

* `reloads_iff`: for which calls it does;
* `cache_sound_and_reloads_iff`: the cards that are loaded are those of one earlier call as well.
-/

namespace OpenViking.Wiki

open Fs
open Memory (strip strip_of_ends)

/-! ## A call that finished -/

section Uris

variable {env : Env} {config : WikiConfig} {ctx : RequestContext} {uri : Str} {path : Path}

/-- A URI below `viking://wiki/` that is no directory's. -/
structure FileUri (uri : Str) : Prop where
  isWiki : wikiPrefix <+: uri
  last : uri.getLast? = some 'n'

theorem isWiki_cardsDir (config : WikiConfig) : wikiPrefix <+: cardsDir config := by
  have hroot : config.wikiRootUri <+: wikiRoot config := by
    rw [wikiRoot, slash]
    split_ifs
    · exact List.prefix_rfl
    · exact List.prefix_append _ _
  exact (config.isWiki.trans hroot).trans (List.prefix_append _ _)

theorem fileUri_cardJsonUri (config : WikiConfig) (docId : Str) : FileUri (cardJsonUri config docId) where
  isWiki := by
    rw [cardJsonUri, List.append_assoc]
    exact (isWiki_cardsDir config).trans (List.prefix_append _ _)
  last := by
    rw [cardJsonUri, List.getLast?_append_of_ne_nil _ (by decide)]
    rfl

theorem fileUri_cardManifestUri (config : WikiConfig) : FileUri (cardManifestUri config) where
  isWiki := (isWiki_cardsDir config).trans (List.prefix_append _ _)
  last := by
    rw [cardManifestUri, List.getLast?_append_of_ne_nil _ (by decide)]
    rfl

theorem FileUri.strip_eq (h : FileUri uri) : strip uri = uri := by
  obtain ⟨t, rfl⟩ := h.isWiki
  refine strip_of_ends (c := 'v') (by decide) fun d hd => ?_
  rw [← Option.some.inj (h.last.symm.trans hd)]
  decide

theorem requireText_fileUri {checked : Text} (h : FileUri uri) (hcheck : requireText uri = some checked) :
    checked.val = uri := by
  rw [val_of_requireText hcheck, h.strip_eq]

/-- Such a URI is its own canonical form. -/
theorem canonicalizeUri_fileUri (h : FileUri uri) : canonicalizeUri uri ctx = .ok uri := by
  obtain ⟨t, ht⟩ := h.isWiki
  have hnormalize : Fs.normalize uri = uri := by
    rw [Fs.normalize, if_pos]
    exact (show scheme <+: wikiPrefix by decide).trans h.isWiki
  have hraw : rawParts uri = "wiki".toList :: segments t := by
    have huri : uri = scheme ++ ("wiki".toList ++ '/' :: t) := ht.symm
    rw [huri, rawParts_scheme, segments_append (by decide) (by decide)]
  obtain ⟨rest, huri⟩ := uriParts_of_rawParts hraw (by decide)
  have hslash : rstripSlash uri = uri := by
    rw [rstripSlash, List.rdropWhile_eq_self_iff]
    intro hne
    have hlast := h.last
    rw [List.getLast?_eq_some_getLast hne] at hlast
    rw [Option.some.inj hlast]
    decide
  rw [canonicalizeUri, resolveUri_other huri (by decide) (by decide), hnormalize, hslash]
  rfl

theorem ok_of_toOption {ε α : Type*} {x : Except ε α} {a : α} (h : x.toOption = some a) : x = .ok a := by
  cases x with
  | error e => cases h
  | ok b => rw [Option.some.inj h]

/-- **What is written to a URI is read there.** -/
theorem read_of_writePath (h : FileUri uri) (hpath : writePath env uri ctx = some path) :
    uriToPath env uri ctx = .ok path ∧
      ∀ files : CardFiles, readContent env files uri ctx = files path := by
  rw [writePath, canonicalizeUri_fileUri h] at hpath
  obtain ⟨u, haccess, hpath⟩ := Option.bind_eq_some_iff.1 hpath
  have haccess := access_of_change (ok_of_toOption haccess)
  have hpath := ok_of_toOption hpath
  refine ⟨hpath, fun files => ?_⟩
  rw [readContent, haccess, hpath]
  rfl

end Uris

theorem path_of_read {env : Env} {files : CardFiles} {uri : Str} {ctx : RequestContext}
    {content : Content} (h : readContent env files uri ctx = some content) :
    ∃ path, uriToPath env uri ctx = .ok path ∧ files path = some content := by
  obtain ⟨-, -, h⟩ := Option.bind_eq_some_iff.1 h
  obtain ⟨path, hpath, hfile⟩ := Option.bind_eq_some_iff.1 h
  exact ⟨path, ok_of_toOption hpath, hfile⟩

section Finished

variable {env : StoreEnv} {config : WikiConfig} {ctx : RequestContext} {files files' mid : CardFiles}

theorem runSteps_append_eq_true {steps more : List (Option FsStep)} :
    runSteps (steps ++ more) files = (files', true) ↔
      ∃ mid, runSteps steps files = (mid, true) ∧ runSteps more mid = (files', true) := by
  induction steps generalizing files with
  | nil =>
    refine ⟨fun h => ⟨files, rfl, h⟩, ?_⟩
    rintro ⟨mid, hmid, h⟩
    rw [← (Prod.mk.inj hmid).1] at h
    exact h
  | cons step steps ih =>
    cases step with
    | none =>
      refine iff_of_false (fun h => by cases h) ?_
      rintro ⟨mid, hmid, -⟩
      cases hmid
    | some step => exact ih

/-- Writing a content to each of some URIs. -/
def writes (env : Env) (ctx : RequestContext) (ws : List (Str × Content)) : List (Option FsStep) :=
  ws.map fun w => writeJson env ctx w.1 w.2

variable {ws : List (Str × Content)}

theorem run_write {uri : Str} {content : Content}
    (h : runSteps (writes env.toEnv ctx ((uri, content) :: ws)) files = (files', true)) :
    ∃ path, writePath env.toEnv uri ctx = some path ∧
      runSteps (writes env.toEnv ctx ws) (Function.update files path (some content)) =
        (files', true) := by
  rw [writes, List.map_cons, writeJson] at h
  cases hpath : writePath env.toEnv uri ctx with
  | none =>
    rw [hpath] at h
    cases h
  | some path =>
    rw [hpath] at h
    exact ⟨path, rfl, h⟩

/-- Other files stay as they are. -/
theorem run_writes_other (huris : ∀ w ∈ ws, FileUri w.1)
    (h : runSteps (writes env.toEnv ctx ws) files = (files', true)) {path : Path}
    (hpath : ∀ w ∈ ws, uriToPath env.toEnv w.1 ctx ≠ .ok path) : files' path = files path := by
  induction ws generalizing files with
  | nil => rw [← (Prod.mk.inj h).1]
  | cons w ws ih =>
    rw [List.forall_mem_cons] at huris hpath
    obtain ⟨p, hp, hrest⟩ := run_write h
    have hne : path ≠ p := by
      rintro rfl
      exact hpath.1 (read_of_writePath huris.1 hp).1
    rw [ih huris.2 hrest hpath.2, Function.update_of_ne hne]

/-- What is written is there at the end, if the paths differ. -/
theorem run_writes_mem (huris : ∀ w ∈ ws, FileUri w.1)
    (hnodup : (ws.map fun w => uriToPath env.toEnv w.1 ctx).Nodup)
    (h : runSteps (writes env.toEnv ctx ws) files = (files', true)) :
    ∀ w ∈ ws, readContent env.toEnv files' w.1 ctx = some w.2 := by
  induction ws generalizing files with
  | nil => simp
  | cons w ws ih =>
    rw [List.forall_mem_cons] at huris
    rw [List.map_cons, List.nodup_cons] at hnodup
    obtain ⟨p, hp, hrest⟩ := run_write h
    obtain ⟨hpath, hread⟩ := read_of_writePath huris.1 hp
    refine List.forall_mem_cons.2 ⟨?_, ih huris.2 hnodup.2 hrest⟩
    rw [hread, run_writes_other huris.2 hrest, Function.update_self]
    intro w' hw' heq
    exact hnodup.1 (List.mem_map.2 ⟨w', hw', heq.trans hpath.symm⟩)

/-- The contents that a call writes. -/
def cardWrites (config : WikiConfig) (call : ReplaceCall) (manifest : Manifest) :
    List (Str × Content) :=
  call.cards.map (fun card => (cardJsonUri config card.docId.val, .card card)) ++
    [(cardManifestUri config, .manifest manifest)]

variable {call : ReplaceCall} {manifest : Manifest}

theorem fileUri_cardWrites : ∀ w ∈ cardWrites config call manifest, FileUri w.1 := by
  intro w hw
  rcases List.mem_append.1 hw with hw | hw
  · obtain ⟨card, -, rfl⟩ := List.mem_map.1 hw
    exact fileUri_cardJsonUri config _
  · rw [List.mem_singleton.1 hw]
    exact fileUri_cardManifestUri config

theorem run_cardWrites {removed : List Path}
    (h : runSteps (replaceSteps env config ctx call manifest removed) files = (files', true)) :
    ∃ mid, runSteps (writes env.toEnv ctx (cardWrites config call manifest)) mid = (files', true) := by
  have hsteps : replaceSteps env config ctx call manifest removed =
      removed.map (fun path => some (.remove path)) ++
        writes env.toEnv ctx (cardWrites config call manifest) := by
    rw [replaceSteps, writes, cardWrites, List.map_append, List.map_map, List.append_assoc]
    rfl
  rw [hsteps] at h
  obtain ⟨mid, -, h⟩ := runSteps_append_eq_true.1 h
  exact ⟨mid, h⟩

/-- The manifest is written last. -/
theorem readManifest_of_run
    (h : runSteps (writes env.toEnv ctx (cardWrites config call manifest)) mid = (files', true)) :
    readContent env.toEnv files' (cardManifestUri config) ctx = some (.manifest manifest) := by
  rw [writes, cardWrites, List.map_append] at h
  obtain ⟨last, -, h⟩ := runSteps_append_eq_true.1 h
  obtain ⟨path, hpath, h⟩ := run_write h
  rw [(read_of_writePath (fileUri_cardManifestUri config) hpath).2, ← (Prod.mk.inj h).1,
    Function.update_self]

/-! ### When it is loaded again -/

/-- A call whose cards can be loaded again: what the manifest keeps is what was given, the cards are those
of their documents, and no two files are at one path. -/
structure Reloadable (env : StoreEnv) (config : WikiConfig) (ctx : RequestContext) (call : ReplaceCall) :
    Prop where
  pipelineVersion : strip config.pipelineVersion = config.pipelineVersion
  roots : ∀ uri ∈ call.resourceUris, strip uri = uri
  identity : ∀ doc ∈ call.resourceDocuments, ∀ card ∈ call.cards, card.docId = doc.docId →
    card.resourceUri = doc.resourceUri ∧ card.title = doc.title
  paths : ((cardManifestUri config :: call.resourceDocuments.map fun doc =>
    cardJsonUri config doc.docId.val).map fun uri => uriToPath env.toEnv uri ctx).Nodup

/-- The documents of a call can be loaded with its roots. -/
def Reloads (env : StoreEnv) (config : WikiConfig) (ctx : RequestContext) (call : ReplaceCall)
    (files : CardFiles) : Prop :=
  ∃ manifest cards, readManifest env.toEnv config files ctx = .ok manifest ∧
    loadValidated env config files ctx manifest call.resourceDocuments call.resourceUris = .ok cards

theorem requireResourceUri_val {uri : Str} {checked : ResourceUri}
    (h : requireResourceUri uri = some checked) : checked.val = strip uri := by
  obtain ⟨t, ht, h⟩ := Option.bind_eq_some_iff.1 h
  split_ifs at h
  rw [← Option.some.inj h]
  exact val_of_requireText ht

section

variable (h : Built env config call manifest)

include h

/-- The roots of a manifest are those of its call without blanks. -/
theorem Built.roots : manifest.resourceUris.map (fun uri => uri.val) = call.resourceUris.map strip := by
  have hforall := h.resourceUris
  generalize manifest.resourceUris = checked at hforall
  generalize call.resourceUris = uris at hforall
  induction hforall with
  | nil => rfl
  | cons hfirst _ ih => rw [List.map_cons, List.map_cons, ih, requireResourceUri_val hfirst]

/-- The entry of a document of the call. -/
theorem Built.entry {doc : ResourceDocument} (hdoc : doc ∈ call.resourceDocuments) :
    ∃ entry ∈ manifest.entries, buildEntry env config call.cards doc = some entry :=
  exists_of_forall₂ h.entries hdoc

theorem Built.entries_key :
    manifest.entries.map ManifestEntry.key = call.resourceDocuments.map ResourceDocument.key := by
  have hforall := h.entries
  generalize manifest.entries = entries at hforall
  generalize call.resourceDocuments = documents at hforall
  induction hforall with
  | nil => rfl
  | cons hfirst _ ih =>
    obtain ⟨-, -, -, hid, -⟩ := of_buildEntry hfirst
    rw [List.map_cons, List.map_cons, ih, ManifestEntry.key, hid, ResourceDocument.key]

/-- What the manifest of a call says of its roots and versions. -/
theorem Built.fits (hreload : Reloadable env config ctx call) :
    Fits env config manifest call.resourceDocuments call.resourceUris where
  version _ := h.version
  pipelineVersion := by rw [val_of_requireText h.pipelineVersion, hreload.pipelineVersion]
  schemaHash _ := h.schemaHash
  promptVersion _ := h.promptVersion
  roots := by
    rw [h.roots, List.map_congr_left hreload.roots, List.map_id']
  documents_nodup := h.documents
  entries_nodup := by
    rw [h.entries_key]
    exact h.documents
  documents_subset := by
    rw [h.entries_key]
    exact fun docId hdocId => hdocId
  entries_subset := by
    rw [h.entries_key]
    exact fun docId hdocId => hdocId

/-- The URIs of the cards are those of the documents, in another order. -/
theorem Built.uris_perm :
    ((cardWrites config call manifest).map Prod.fst).Perm
      (cardManifestUri config :: call.resourceDocuments.map fun doc =>
        cardJsonUri config doc.docId.val) := by
  have hkeys : (call.cards.map DocumentCard.key).Perm
      (call.resourceDocuments.map ResourceDocument.key) :=
    (List.perm_ext_iff_of_nodup h.cards h.documents).2 fun docId =>
      ⟨h.cards_subset docId, h.documents_subset docId⟩
  have hcards := hkeys.map (cardJsonUri config)
  rw [List.map_map, List.map_map] at hcards
  rw [cardWrites, List.map_append, List.map_map]
  exact (List.perm_append_singleton _ _).trans (.cons _ hcards)

end

/-- A card that was written is loaded. -/
theorem loads_of_run (hbuilt : Built env config call manifest) (hreload : Reloadable env config ctx call)
    (h : runSteps (writes env.toEnv ctx (cardWrites config call manifest)) mid = (files', true))
    {doc : ResourceDocument} (hdoc : doc ∈ call.resourceDocuments) :
    ∃ card entry content, Loads env files' ctx manifest doc card entry content := by
  obtain ⟨entry, hentry, hbuild⟩ := hbuilt.entry hdoc
  obtain ⟨card, hcard, hkey, hid, htitle, huri, hprompt, hhash, hjson⟩ := of_buildEntry hbuild
  have hdocId : card.docId = doc.docId := Text.ext_val hkey
  obtain ⟨hcardUri, hcardTitle⟩ := hreload.identity doc hdoc card hcard hdocId
  have hnodup : ((cardWrites config call manifest).map fun w => uriToPath env.toEnv w.1 ctx).Nodup := by
    have hperm := hbuilt.uris_perm.map fun uri => uriToPath env.toEnv uri ctx
    rw [List.map_map] at hperm
    exact hperm.nodup_iff.2 hreload.paths
  have hread := run_writes_mem fileUri_cardWrites hnodup h
    (cardJsonUri config card.docId.val, .card card)
    (List.mem_append_left _ (List.mem_map_of_mem hcard))
  refine ⟨card, entry, .card card, ?_, huri, htitle, fun _ => hprompt, ?_, hhash.symm, rfl,
    by rw [hdocId, hid], by rw [huri, hcardUri], by rw [htitle, hcardTitle]⟩
  · refine byDocId_of_mem ?_ hentry ?_
    · rw [hbuilt.entries_key]
      exact hbuilt.documents
    · rw [ManifestEntry.key, hid]
  · rw [requireText_fileUri (fileUri_cardJsonUri config _) hjson, ← hdocId]
    exact hread

/-- What is loaded again was reloadable: two documents at one path would have one card. -/
theorem reloadable_of_reloads (hsha : Function.Injective env.sha256) (hbuilt : Built env config call manifest)
    (hmanifest : readContent env.toEnv files' (cardManifestUri config) ctx = some (.manifest manifest))
    (h : Reloads env config ctx call files') : Reloadable env config ctx call := by
  obtain ⟨found, cards, hread, hload⟩ := h
  obtain rfl : manifest = found := by
    rw [readManifest, hmanifest] at hread
    exact Except.ok.inj hread
  obtain ⟨hfits, hloads⟩ := loadValidated_eq_ok_iff.1 hload
  have hcard : ∀ doc ∈ call.resourceDocuments, ∃ card, CardOf env call doc card ∧
      readContent env.toEnv files' (cardJsonUri config doc.docId.val) ctx = some (.card card) ∧
      card.resourceUri.val = doc.resourceUri.val ∧ card.title = doc.title := by
    intro doc hdoc
    obtain ⟨card, -, entry, content, hl⟩ := exists_of_forall₂ hloads hdoc
    obtain ⟨hof, rfl, hjson⟩ := cardOf_of_loads hsha hbuilt hl
    have hread := hl.read
    rw [requireText_fileUri (fileUri_cardJsonUri config _) hjson] at hread
    exact ⟨card, hof, hread, hl.card_resourceUri.trans hl.resourceUri, hl.card_title.trans hl.title⟩
  refine ⟨?_, ?_, ?_, ?_⟩
  · rw [← hfits.pipelineVersion, val_of_requireText hbuilt.pipelineVersion, strip_strip]
  · have hroots := hfits.roots
    rw [hbuilt.roots] at hroots
    exact List.map_inj_left.1 (hroots.trans (List.map_id _).symm)
  · intro doc hdoc card hmem hid
    obtain ⟨card', hof, -, huri, htitle⟩ := hcard doc hdoc
    obtain rfl := List.inj_on_of_nodup_map hbuilt.cards hmem hof.stored
      (by rw [DocumentCard.key, DocumentCard.key, hid, hof.docId])
    exact ⟨SourceUri.ext_val huri, htitle⟩
  · obtain ⟨path, hpath, hfile⟩ := path_of_read hmanifest
    rw [List.map_cons, List.map_map, List.nodup_cons]
    constructor
    · rintro hmem
      obtain ⟨doc, hdoc, heq⟩ := List.mem_map.1 hmem
      obtain ⟨card, -, hread, -⟩ := hcard doc hdoc
      obtain ⟨path', hpath', hfile'⟩ := path_of_read hread
      obtain rfl := Except.ok.inj ((hpath'.symm.trans heq).trans hpath)
      rw [hfile] at hfile'
      cases hfile'
    · refine List.Nodup.map_on (fun a ha b hb heq => ?_) (List.Nodup.of_map _ hbuilt.documents)
      obtain ⟨card, hof, hread, -⟩ := hcard a ha
      obtain ⟨card', hof', hread', -⟩ := hcard b hb
      obtain ⟨pathA, hpathA, hfileA⟩ := path_of_read hread
      obtain ⟨pathB, hpathB, hfileB⟩ := path_of_read hread'
      obtain rfl := Except.ok.inj ((hpathA.symm.trans heq).trans hpathB)
      obtain rfl := Content.card.inj (Option.some.inj (hfileA.symm.trans hfileB))
      exact List.inj_on_of_nodup_map hbuilt.documents ha hb
        (by rw [ResourceDocument.key, ResourceDocument.key, ← hof.docId, hof'.docId])

/-- **When a call that finished can be loaded again.** -/
theorem reloads_iff (hsha : Function.Injective env.sha256) (h : Finished env config ctx call files files') :
    Reloads env config ctx call files' ↔ Reloadable env config ctx call := by
  obtain ⟨manifest, dir, removed, hmanifest, -, -, hrun⟩ := h
  have hbuilt := built_of_buildManifest hmanifest
  obtain ⟨mid, hrun⟩ := run_cardWrites hrun
  have hread := readManifest_of_run hrun
  refine ⟨reloadable_of_reloads hsha hbuilt hread, fun hreload => ?_⟩
  obtain ⟨cards, hcards⟩ := exists_forall₂ fun doc (hdoc : doc ∈ call.resourceDocuments) =>
    loads_of_run hbuilt hreload hrun hdoc
  refine ⟨manifest, cards, ?_, loadValidated_eq_ok_iff.2 ⟨hbuilt.fits hreload, hcards⟩⟩
  rw [readManifest, hread]

end Finished

/-- **The cards that are loaded are those of one earlier call**; and the cards of a call that finished
are loaded again if and only if it is reloadable. -/
theorem cache_sound_and_reloads_iff (env : StoreEnv) (config : WikiConfig) (ctx : RequestContext)
    (hsha : Function.Injective env.sha256) :
    (∀ calls files manifest documents resourceUris cards, Reached env config ctx calls files →
      readManifest env.toEnv config files ctx = .ok manifest →
      loadValidated env config files ctx manifest documents resourceUris = .ok cards →
      ∃ call ∈ calls, List.Forall₂ (CardOf env call) documents cards) ∧
    ∀ call files files', Finished env config ctx call files files' →
      (Reloads env config ctx call files' ↔ Reloadable env config ctx call) :=
  ⟨fun _ _ _ _ _ _ hreached hread hload => cards_of_one_call hsha hreached hread hload,
    fun _ _ _ h => reloads_iff hsha h⟩

/-! ## One guide -/

def guideEnv : StoreEnv where
  toEnv := { asciiEnv with sha256 := id }
  cardPrompt text := "Summarize the document:\n".toList ++ text
  schemaHash := "sha256:schema".toList
  otherText _ := []

def guideConfig : WikiConfig := ⟨"wiki_v2_doc_card".toList, "viking://wiki/".toList, by decide⟩

def guideText (text : String) (h : strip text.toList = text.toList ∧ text.toList ≠ []) : Text :=
  ⟨text.toList, h.1, h.2⟩

def guideUri : SourceUri := ⟨guideText "viking://resources/guide" (by decide), .inl (by decide)⟩

def guideDocument : ResourceDocument :=
  ⟨guideText "guide" (by decide), guideUri, guideText "Guide" (by decide), "# Guide".toList⟩

def guideCard : DocumentCard :=
  ⟨guideText "guide" (by decide), guideUri, guideText "Guide" (by decide),
    guideText "How to start." (by decide), [], ["start".toList], by decide⟩

/-- A call for the guide with this root. -/
def guideCall (root : String) : ReplaceCall :=
  ⟨[guideCard], [guideDocument], [root.toList], "summary", 20000⟩

theorem finished_of_run {env : StoreEnv} {config : WikiConfig} {ctx : RequestContext}
    {call : ReplaceCall} {manifest : Manifest} {d : Path}
    (hmanifest : buildManifest env config call = .ok manifest)
    (hdir : cacheRoot env.toEnv config ctx = some d)
    (hrun : (runSteps (replaceSteps env config ctx call manifest []) fun _ => none).2 = true) :
    Finished env config ctx call (fun _ => none)
      (runSteps (replaceSteps env config ctx call manifest []) fun _ => none).1 :=
  ⟨manifest, d, [], hmanifest, hdir, ⟨fun _ h => (List.not_mem_nil h).elim, fun _ _ h => absurd rfl h⟩,
    Prod.ext rfl hrun⟩

/-- The entry of the guide. -/
def guideEntry : ManifestEntry :=
  ⟨guideText "guide" (by decide), ⟨guideText "viking://resources/guide" (by decide), by decide⟩,
    guideText "Guide" (by decide),
    promptHash guideEnv guideDocument, jsonHash guideEnv (.card guideCard),
    guideText "viking://wiki/cards/guide.card.json" (by decide)⟩

/-- The call finishes on an empty backend. -/
theorem guide_finished {root : String} {checked : ResourceUri}
    (hroot : requireResourceUri root.toList = some checked) :
    ∃ files', Finished guideEnv guideConfig alice (guideCall root) (fun _ => none) files' := by
  have hentries : (guideCall root).resourceDocuments.mapM
      (buildEntry guideEnv guideConfig (guideCall root).cards) = some [guideEntry] := by
    rfl
  have hversion : requireText guideConfig.pipelineVersion =
      some (guideText "wiki_v2_doc_card" (by decide)) := by
    rfl
  have huris : (guideCall root).resourceUris.mapM requireResourceUri = some [checked] := by
    show [root.toList].mapM requireResourceUri = _
    rw [List.mapM_cons, hroot]
    rfl
  have hmanifest : buildManifest guideEnv guideConfig (guideCall root) = .ok
      ⟨2, guideText "wiki_v2_doc_card" (by decide), documentCardPromptVersion, guideEnv.schemaHash,
        "summary", 20000, [checked], [guideEntry]⟩ := by
    have hreasons : buildReasons (guideCall root) = [] := by rfl
    rw [buildManifest, hreasons, if_neg (by simp), hentries, hversion, huris]
    exact if_pos (show "summary" ∈ cardInputModes ∧ (0 : ℤ) < 20000 by decide)
  exact ⟨_, finished_of_run (d := ["local", "acme", "wiki", "cards"].map String.toList) hmanifest
    (by decide +kernel) (by rfl)⟩

theorem guide_paths (root : String) : ((cardManifestUri guideConfig ::
    (guideCall root).resourceDocuments.map fun doc =>
      cardJsonUri guideConfig doc.docId.val).map fun uri =>
        uriToPath guideEnv.toEnv uri alice).Nodup := by
  have hmanifest : uriToPath guideEnv.toEnv (cardManifestUri guideConfig) alice =
      .ok (["local", "acme", "wiki", "cards", "manifest.json"].map String.toList) := by decide +kernel
  have hcard : uriToPath guideEnv.toEnv (cardJsonUri guideConfig "guide".toList) alice =
      .ok (["local", "acme", "wiki", "cards", "guide.card.json"].map String.toList) := by decide +kernel
  show [uriToPath guideEnv.toEnv (cardManifestUri guideConfig) alice,
    uriToPath guideEnv.toEnv (cardJsonUri guideConfig "guide".toList) alice].Nodup
  rw [hmanifest, hcard, List.nodup_cons, List.mem_singleton]
  refine ⟨fun h => ?_, List.nodup_singleton _⟩
  exact absurd (Except.ok.inj h) (by decide)

/-- The guide is loaded again under its root. -/
theorem guide_reloads : ∃ files',
    Finished guideEnv guideConfig alice (guideCall "viking://resources/guide") (fun _ => none) files' ∧
      Reloads guideEnv guideConfig alice (guideCall "viking://resources/guide") files' := by
  have hroot : requireResourceUri "viking://resources/guide".toList =
      some ⟨guideText "viking://resources/guide" (by decide), by decide⟩ := by rfl
  obtain ⟨files', h⟩ := guide_finished hroot
  refine ⟨files', h, ((cache_sound_and_reloads_iff guideEnv guideConfig alice
    Function.injective_id).2 _ _ _ h).2 ⟨by decide, ?_, ?_, guide_paths _⟩⟩
  · intro uri huri
    rw [List.mem_singleton.1 huri]
    decide
  · intro doc hdoc card hcard _
    rw [List.mem_singleton.1 hdoc, List.mem_singleton.1 hcard]
    exact ⟨rfl, rfl⟩

/-- A blank at the end of a root is not in the manifest: the cards of the call are never loaded with it. -/
theorem blank_root_not_reloads : ∃ files',
    Finished guideEnv guideConfig alice (guideCall "viking://resources/guide ") (fun _ => none) files' ∧
      ¬ Reloads guideEnv guideConfig alice (guideCall "viking://resources/guide ") files' := by
  have hroot : requireResourceUri "viking://resources/guide ".toList =
      some ⟨guideText "viking://resources/guide" (by decide), by decide⟩ := by rfl
  obtain ⟨files', h⟩ := guide_finished hroot
  refine ⟨files', h, fun hreloads => ?_⟩
  have hroots := ((reloads_iff Function.injective_id h).1 hreloads).roots
  exact absurd (hroots "viking://resources/guide ".toList List.mem_cons_self) (by decide)

end OpenViking.Wiki
