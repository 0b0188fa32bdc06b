import OpenViking.Wiki.CardStore
import OpenViking.Fs.Guards
import OpenViking.Common.MapM
import Mathlib.Data.List.Nodup

/-!
# What the cache of cards answers

`load_validated` after any calls of `replace`, each of which may be cut off.

* `loadValidated_eq_ok_iff`: when the cards of a manifest are loaded;
* `cards_of_one_call`: they are the cards of one call.
-/

namespace OpenViking.Wiki

open Fs
open Memory (strip strip_of_ends)

/-! ## Keys -/

section Keys

variable {α : Type*} {key : α → Str} {items : List α} {item : α} {docId : Str}

theorem duplicates_eq_nil {seen : List Str} : duplicates key seen items = [] ↔
    (items.map key).Nodup ∧ ∀ item ∈ items, key item ∉ seen := by
  induction items generalizing seen with
  | nil => simp [duplicates]
  | cons item items ih =>
    rw [duplicates]
    split_ifs with hseen
    · refine iff_of_false not_false fun h => ?_
      exact h.2 item List.mem_cons_self hseen
    · rw [ih, List.map_cons, List.nodup_cons, List.forall_mem_cons]
      simp only [List.mem_map, List.mem_cons, not_or, not_exists, not_and]
      constructor
      · rintro ⟨hnodup, hall⟩
        exact ⟨⟨fun x hx => (hall x hx).1, hnodup⟩, hseen, fun x hx => (hall x hx).2⟩
      · rintro ⟨⟨hfirst, hnodup⟩, -, hall⟩
        exact ⟨hnodup, fun x hx => ⟨hfirst x hx, hall x hx⟩⟩

theorem uniqueByDocId_eq_nil {label : String} :
    uniqueByDocId key label items = [] ↔ (items.map key).Nodup := by
  have hdup : duplicates key [] items = [] ↔ (items.map key).Nodup := by
    rw [duplicates_eq_nil]
    simp
  rw [uniqueByDocId]
  split_ifs with h
  · exact iff_of_true rfl (hdup.1 h)
  · exact iff_of_false not_false fun hnodup => h (hdup.2 hnodup)

theorem of_byDocId (h : byDocId key docId items = some item) : item ∈ items ∧ key item = docId :=
  ⟨List.mem_reverse.1 (List.mem_of_find?_eq_some h), by simpa using List.find?_some h⟩

theorem byDocId_of_mem (hnodup : (items.map key).Nodup) (hitem : item ∈ items)
    (hkey : key item = docId) : byDocId key docId items = some item := by
  have hsome : (byDocId key docId items).isSome = true := by
    rw [byDocId, List.find?_isSome]
    exact ⟨item, List.mem_reverse.2 hitem, by simpa using hkey⟩
  obtain ⟨found, hfound⟩ := Option.isSome_iff_exists.1 hsome
  obtain ⟨hmem, hkey'⟩ := of_byDocId hfound
  rw [hfound, List.inj_on_of_nodup_map hnodup hmem hitem (hkey'.trans hkey.symm)]

end Keys

theorem exists_forall₂ {α β : Type*} {R : α → β → Prop} {l : List α} (h : ∀ a ∈ l, ∃ b, R a b) :
    ∃ l', List.Forall₂ R l l' := by
  induction l with
  | nil => exact ⟨[], .nil⟩
  | cons a l ih =>
    obtain ⟨⟨b, hb⟩, hrest⟩ := List.forall_mem_cons.1 h
    obtain ⟨l', hl'⟩ := ih hrest
    exact ⟨b :: l', .cons hb hl'⟩

/-! ## The manifest of a call -/

section Build

variable {env : StoreEnv} {config : WikiConfig} {call : ReplaceCall} {manifest : Manifest}

/-- What a manifest that was built says. -/
structure Built (env : StoreEnv) (config : WikiConfig) (call : ReplaceCall) (manifest : Manifest) :
    Prop where
  documents : (call.resourceDocuments.map ResourceDocument.key).Nodup
  cards : (call.cards.map DocumentCard.key).Nodup
  documents_subset : ∀ docId ∈ call.resourceDocuments.map ResourceDocument.key,
    docId ∈ call.cards.map DocumentCard.key
  cards_subset : ∀ docId ∈ call.cards.map DocumentCard.key,
    docId ∈ call.resourceDocuments.map ResourceDocument.key
  version : manifest.version = cardManifestVersion
  promptVersion : manifest.promptVersion = documentCardPromptVersion
  schemaHash : manifest.schemaHash = env.schemaHash
  pipelineVersion : requireText config.pipelineVersion = some manifest.pipelineVersion
  resourceUris : List.Forall₂ (fun uri checked => requireResourceUri uri = some checked)
    call.resourceUris manifest.resourceUris
  entries : List.Forall₂ (fun doc entry => buildEntry env config call.cards doc = some entry)
    call.resourceDocuments manifest.entries

theorem buildReasons_eq_nil : buildReasons call = [] ↔
    (call.resourceDocuments.map ResourceDocument.key).Nodup ∧
      (call.cards.map DocumentCard.key).Nodup ∧
      (∀ docId ∈ call.resourceDocuments.map ResourceDocument.key,
        docId ∈ call.cards.map DocumentCard.key) ∧
      ∀ docId ∈ call.cards.map DocumentCard.key,
        docId ∈ call.resourceDocuments.map ResourceDocument.key := by
  rw [buildReasons, List.append_eq_nil_iff, List.append_eq_nil_iff, uniqueByDocId_eq_nil,
    uniqueByDocId_eq_nil, and_assoc, ite_eq_left_iff]
  refine and_congr_right fun _ => and_congr_right fun _ => ⟨fun h => ?_, fun h hnot => absurd h hnot⟩
  exact of_not_not fun hnot => absurd (h hnot) (List.cons_ne_nil _ _)

theorem built_of_buildManifest (h : buildManifest env config call = .ok manifest) :
    Built env config call manifest := by
  rw [buildManifest] at h
  by_cases hreasons : buildReasons call ≠ []
  · rw [if_pos hreasons] at h
    cases h
  · rw [if_neg hreasons] at h
    obtain ⟨hdocs, hcards, hdocs', hcards'⟩ := buildReasons_eq_nil.1 (of_not_not hreasons)
    split at h
    · rename_i entries pipelineVersion resourceUris hentries hversion huris
      split_ifs at h with hmode
      obtain rfl := Except.ok.inj h
      exact ⟨hdocs, hcards, hdocs', hcards', rfl, rfl, rfl, hversion, mapM_eq_some.1 huris,
        mapM_eq_some.1 hentries⟩
    · cases h

/-- What an entry says. -/
theorem of_buildEntry {cards : List DocumentCard} {doc : ResourceDocument} {entry : ManifestEntry}
    (h : buildEntry env config cards doc = some entry) :
    ∃ card ∈ cards, card.key = doc.key ∧ entry.docId = doc.docId ∧ entry.title = doc.title ∧
      entry.resourceUri.val = doc.resourceUri.val ∧ entry.promptHash = promptHash env doc ∧
      entry.cardHash = jsonHash env (.card card) ∧
      requireText (cardJsonUri config doc.docId.val) = some entry.cardJsonUri := by
  rw [buildEntry] at h
  obtain ⟨card, hcard, h⟩ := Option.bind_eq_some_iff.1 h
  obtain ⟨resourceUri, huri, h⟩ := Option.bind_eq_some_iff.1 h
  obtain ⟨uri, hjson, h⟩ := Option.map_eq_some_iff.1 h
  obtain ⟨hmem, hkey⟩ := of_byDocId hcard
  obtain rfl := h
  refine ⟨card, hmem, hkey, rfl, rfl, ?_, rfl, rfl, hjson⟩
  rw [requireResourceUri, requireText_val, Option.bind_some] at huri
  split_ifs at huri
  rw [← Option.some.inj huri]

/-- No manifest of a call is one of version 1. -/
theorem Built.not_legacy (h : Built env config call manifest) : isLegacyManifest manifest = false := by
  refine decide_eq_false fun hlegacy => ?_
  rw [h.version] at hlegacy
  exact absurd hlegacy.1 (by decide)

end Build

/-! ## Every manifest is the one of a call -/

section Reached

variable {env : StoreEnv} {config : WikiConfig} {ctx : RequestContext}

variable {path : Path}

/-- A manifest in the files after some steps was there before or is the one that they write. -/
theorem manifest_of_runSteps {steps : List (Option FsStep)} {files : CardFiles}
    {manifest : Manifest} (h : (runSteps steps files).1 path = some (.manifest manifest)) :
    files path = some (.manifest manifest) ∨ some (.write path (.manifest manifest)) ∈ steps := by
  induction steps generalizing files with
  | nil => exact .inl h
  | cons step steps ih =>
    cases step with
    | none => exact .inl h
    | some step =>
      rcases ih h with hbefore | hwritten
      · cases step with
        | remove p =>
          rw [FsStep.run, Function.update_apply] at hbefore
          split_ifs at hbefore
          exact .inl hbefore
        | write p content =>
          rw [FsStep.run, Function.update_apply] at hbefore
          split_ifs at hbefore with hp
          · rw [hp, Option.some.inj hbefore]
            exact .inr List.mem_cons_self
          · exact .inl hbefore
      · exact .inr (List.mem_cons_of_mem _ hwritten)

theorem mem_replaceSteps {call : ReplaceCall} {manifest manifest' : Manifest} {removed : List Path}
    (h : some (.write path (.manifest manifest')) ∈
      replaceSteps env config ctx call manifest removed) : manifest' = manifest := by
  rw [replaceSteps, List.mem_append, List.mem_append] at h
  rcases h with (h | h) | h
  · obtain ⟨p, -, hp⟩ := List.mem_map.1 h
    cases hp
  · obtain ⟨card, -, hcard⟩ := List.mem_map.1 h
    obtain ⟨p, -, hp⟩ := Option.map_eq_some_iff.1 hcard
    cases hp
  · obtain ⟨p, -, hp⟩ := Option.map_eq_some_iff.1 (List.mem_singleton.1 h).symm
    cases hp
    rfl

/-- **Every manifest in the files is the one of a call.** -/
theorem manifest_of_reached {calls : List ReplaceCall} {files : CardFiles}
    (h : Reached env config ctx calls files) {manifest : Manifest}
    (hpath : files path = some (.manifest manifest)) :
    ∃ call ∈ calls, buildManifest env config call = .ok manifest := by
  induction h with
  | start files hnone => exact absurd hpath (hnone path manifest)
  | call call _ hcall ih =>
    cases hcall with
    | refused error herror =>
      exact (ih hpath).imp fun c hc => ⟨List.mem_append_left _ hc.1, hc.2⟩
    | cut built dir removed n hbuilt hdir hremoved =>
      rcases manifest_of_runSteps hpath with hbefore | hwritten
      · exact (ih hbefore).imp fun c hc => ⟨List.mem_append_left _ hc.1, hc.2⟩
      · obtain rfl := mem_replaceSteps (List.mem_of_mem_take hwritten)
        exact ⟨call, List.mem_append_right _ List.mem_cons_self, hbuilt⟩

end Reached

/-! ## What is loaded -/

section Load

variable {env : StoreEnv} {config : WikiConfig} {ctx : RequestContext} {files : CardFiles}
  {manifest : Manifest} {documents : List ResourceDocument} {resourceUris : List Str}
  {cards : List DocumentCard}

theorem reasonIf_eq_nil {p : Prop} [Decidable p] {reason : Reason} : reasonIf p reason = [] ↔ ¬ p := by
  rw [reasonIf]
  split_ifs with h
  · exact iff_of_false not_false (not_not_intro h)
  · exact iff_of_true rfl h

/-- A document whose card is loaded without a reason against it. -/
structure Loads (env : StoreEnv) (files : CardFiles) (ctx : RequestContext) (manifest : Manifest)
    (doc : ResourceDocument) (card : DocumentCard) (entry : ManifestEntry) (content : Content) :
    Prop where
  found : byDocId ManifestEntry.key doc.docId.val manifest.entries = some entry
  resourceUri : entry.resourceUri.val = doc.resourceUri.val
  title : entry.title = doc.title
  prompt : isLegacyManifest manifest = false → entry.promptHash = promptHash env doc
  read : readContent env.toEnv files entry.cardJsonUri.val ctx = some content
  hash : jsonHash env content = entry.cardHash
  parsed : parseCard (isLegacyManifest manifest) content = some card
  card_docId : card.docId = entry.docId
  card_resourceUri : card.resourceUri.val = entry.resourceUri.val
  card_title : card.title = entry.title

theorem loadCard_eq_iff {doc : ResourceDocument} {card : DocumentCard} :
    loadCard env files ctx manifest doc = ([], some card) ↔
      ∃ entry content, Loads env files ctx manifest doc card entry content := by
  constructor
  · intro h
    rw [loadCard] at h
    split at h
    · cases h
    · rename_i entry hentry
      split at h
      · exact absurd (congrArg Prod.fst h) (List.append_ne_nil_of_right_ne_nil _ (List.cons_ne_nil _ _))
      · rename_i content hcontent
        dsimp only at h
        split at h
        · exact absurd (congrArg Prod.fst h)
            (List.append_ne_nil_of_right_ne_nil _ (List.cons_ne_nil _ _))
        · rename_i found hfound
          obtain ⟨hreasons, hcard⟩ := Prod.mk.inj h
          obtain rfl := Option.some.inj hcard
          simp only [List.append_eq_nil_iff, reasonIf_eq_nil, not_or, not_and, ne_eq, not_not] at hreasons
          obtain ⟨⟨⟨⟨huri, htitle⟩, hprompt⟩, hhash⟩, hid, huri', htitle'⟩ := hreasons
          exact ⟨entry, content, hentry, huri, htitle, fun hlegacy => hprompt (by rw [hlegacy]; decide),
            hcontent, hhash, hfound, hid, huri', htitle'⟩
  · rintro ⟨entry, content, h⟩
    have hfine : ¬ (entry.resourceUri.val ≠ doc.resourceUri.val ∨ entry.title ≠ doc.title) := by
      simp [h.resourceUri, h.title]
    have hprompt : ¬ (¬ isLegacyManifest manifest = true ∧ entry.promptHash ≠ promptHash env doc) :=
      fun hne => hne.2 (h.prompt (Bool.not_eq_true _ ▸ hne.1))
    have hidentity : ¬ (card.docId ≠ entry.docId ∨ card.resourceUri.val ≠ entry.resourceUri.val ∨
        card.title ≠ entry.title) := by
      simp [h.card_docId, h.card_resourceUri, h.card_title]
    rw [loadCard, h.found]
    dsimp only
    rw [h.read]
    dsimp only
    rw [h.parsed]
    dsimp only
    rw [reasonIf_eq_nil.2 hfine, reasonIf_eq_nil.2 hprompt, reasonIf_eq_nil.2 hidentity,
      reasonIf_eq_nil.2 (not_not_intro h.hash)]
    rfl

/-- What is true of a manifest that fits. -/
structure Fits (env : StoreEnv) (config : WikiConfig) (manifest : Manifest)
    (documents : List ResourceDocument) (resourceUris : List Str) : Prop where
  version : isLegacyManifest manifest = false → manifest.version = cardManifestVersion
  pipelineVersion : manifest.pipelineVersion.val = config.pipelineVersion
  schemaHash : isLegacyManifest manifest = false → manifest.schemaHash = env.schemaHash
  promptVersion : isLegacyManifest manifest = false →
    manifest.promptVersion = documentCardPromptVersion
  roots : manifest.resourceUris.map (fun uri => uri.val) = resourceUris
  documents_nodup : (documents.map ResourceDocument.key).Nodup
  entries_nodup : (manifest.entries.map ManifestEntry.key).Nodup
  documents_subset : ∀ docId ∈ documents.map ResourceDocument.key,
    docId ∈ manifest.entries.map ManifestEntry.key
  entries_subset : ∀ docId ∈ manifest.entries.map ManifestEntry.key,
    docId ∈ documents.map ResourceDocument.key

theorem manifestReasons_eq_nil :
    manifestReasons env config manifest documents resourceUris = [] ↔
      Fits env config manifest documents resourceUris := by
  have hlegacy : ∀ {p : Prop}, (¬ (¬ p ∧ ¬ isLegacyManifest manifest = true)) ↔
      (isLegacyManifest manifest = false → p) := by
    intro p
    rw [not_and_not_right, ← not_imp_not, not_not, Bool.not_eq_true]
  simp only [manifestReasons, List.append_eq_nil_iff, reasonIf_eq_nil, uniqueByDocId_eq_nil, ne_eq,
    hlegacy, not_not, not_exists, not_and]
  constructor
  · rintro ⟨⟨⟨⟨⟨⟨⟨⟨hversion, hpipeline⟩, hschema⟩, hprompt⟩, huris⟩, hdocs⟩, hentries⟩, hsub⟩, hsub'⟩
    exact ⟨hversion, hpipeline, hschema, hprompt, huris, hdocs, hentries, hsub, hsub'⟩
  · intro h
    exact ⟨⟨⟨⟨⟨⟨⟨⟨h.version, h.pipelineVersion⟩, h.schemaHash⟩, h.promptVersion⟩, h.roots⟩,
      h.documents_nodup⟩, h.entries_nodup⟩, h.documents_subset⟩, h.entries_subset⟩

/-- A document with an entry has a card or a reason. -/
theorem loadCard_of_reasons_nil {doc : ResourceDocument}
    (hentry : doc.key ∈ manifest.entries.map ManifestEntry.key)
    (h : (loadCard env files ctx manifest doc).1 = []) :
    ∃ card, loadCard env files ctx manifest doc = ([], some card) := by
  have hne : ∀ (reasons : List Reason) (reason : Reason), reasons ++ [reason] ≠ [] :=
    fun reasons reason => List.append_ne_nil_of_right_ne_nil _ (List.cons_ne_nil _ _)
  rw [loadCard] at h ⊢
  cases hfound : byDocId ManifestEntry.key doc.docId.val manifest.entries with
  | none =>
    obtain ⟨entry, hmem, hkey⟩ := List.mem_map.1 hentry
    rw [byDocId, List.find?_eq_none] at hfound
    exact absurd (decide_eq_true hkey) (hfound entry (List.mem_reverse.2 hmem))
  | some entry =>
    rw [hfound] at h
    dsimp only at h ⊢
    cases hread : readContent env.toEnv files entry.cardJsonUri.val ctx with
    | none =>
      rw [hread] at h
      exact absurd h (hne _ _)
    | some content =>
      rw [hread] at h
      dsimp only at h ⊢
      cases hparse : parseCard (isLegacyManifest manifest) content with
      | none =>
        rw [hparse] at h
        exact absurd h (hne _ _)
      | some card =>
        rw [hparse] at h
        exact ⟨card, Prod.ext h rfl⟩

theorem loadCards_eq_iff (hsub : ∀ docId ∈ documents.map ResourceDocument.key,
      docId ∈ manifest.entries.map ManifestEntry.key) :
    ((documents.map (loadCard env files ctx manifest)).flatMap Prod.fst = [] ∧
      (documents.map (loadCard env files ctx manifest)).filterMap Prod.snd = cards) ↔
        List.Forall₂ (fun doc card => loadCard env files ctx manifest doc = ([], some card))
          documents cards := by
  induction documents generalizing cards with
  | nil =>
    rw [List.forall₂_nil_left_iff]
    exact ⟨fun h => h.2.symm, fun h => ⟨rfl, h.symm⟩⟩
  | cons doc documents ih =>
    rw [List.map_cons, List.forall_mem_cons] at hsub
    rw [List.map_cons, List.flatMap_cons, List.append_eq_nil_iff, List.forall₂_cons_left_iff]
    constructor
    · rintro ⟨⟨hfirst, hrest⟩, hcards⟩
      obtain ⟨card, hcard⟩ := loadCard_of_reasons_nil hsub.1 hfirst
      rw [List.filterMap_cons_some (congrArg Prod.snd hcard)] at hcards
      exact ⟨card, _, hcard, (ih hsub.2).1 ⟨hrest, rfl⟩, hcards.symm⟩
    · rintro ⟨card, rest, hcard, hrest, rfl⟩
      obtain ⟨hnil, hrest⟩ := (ih hsub.2).2 hrest
      rw [List.filterMap_cons_some (congrArg Prod.snd hcard), hrest]
      exact ⟨⟨congrArg Prod.fst hcard, hnil⟩, rfl⟩

/-- **When the cards of a manifest are loaded.** -/
theorem loadValidated_eq_ok_iff :
    loadValidated env config files ctx manifest documents resourceUris = .ok cards ↔
      Fits env config manifest documents resourceUris ∧
        List.Forall₂ (fun doc card => ∃ entry content,
          Loads env files ctx manifest doc card entry content) documents cards := by
  rw [loadValidated]
  simp only [← loadCard_eq_iff]
  by_cases hfits : Fits env config manifest documents resourceUris
  · rw [manifestReasons_eq_nil.2 hfits, List.nil_append, and_iff_right hfits,
      ← loadCards_eq_iff hfits.documents_subset]
    split_ifs with hreasons
    · exact iff_of_false (fun h => by cases h) fun h => hreasons h.1
    · rw [Except.ok.injEq]
      exact (and_iff_right (of_not_not hreasons)).symm
  · rw [if_pos]
    · exact iff_of_false (fun h => by cases h) fun h => hfits h.1
    · intro hnil
      exact hfits (manifestReasons_eq_nil.1 (List.append_eq_nil_iff.1 hnil).1)

end Load

/-! ## The cards are those of one call -/

section Sound

variable {env : StoreEnv} {config : WikiConfig} {ctx : RequestContext} {call : ReplaceCall}
  {manifest : Manifest}

theorem Text.ext_val {a b : Text} (h : a.val = b.val) : a = b := by
  cases a
  cases b
  congr 1

theorem SourceUri.ext_val {a b : SourceUri} (h : a.val = b.val) : a = b := by
  have htext : a.toText = b.toText := Text.ext_val h
  cases a
  cases b
  congr 1

/-- **The JSON of a card determines it.** -/
theorem cardText_injective : Function.Injective cardText := by
  have hlist : ∀ {a b : List Str}, a.map String.ofList = b.map String.ofList → a = b := fun h =>
    List.map_injective_iff.2 (fun _ _ h => String.ofList_injective h) h
  intro a b h
  unfold cardText at h
  obtain ⟨htopics, h⟩ := Json.arrayText_append_inj (List.append_cancel_left h)
  obtain ⟨hid, h⟩ := Json.quote_append_inj (List.append_cancel_left h)
  obtain ⟨hterms, h⟩ := Json.arrayText_append_inj (List.append_cancel_left h)
  obtain ⟨huri, h⟩ := Json.quote_append_inj (List.append_cancel_left h)
  obtain ⟨hsummary, h⟩ := Json.quote_append_inj (List.append_cancel_left h)
  obtain ⟨htitle, -⟩ := Json.quote_append_inj (List.append_cancel_left h)
  have hid := Text.ext_val (String.ofList_injective hid)
  have huri := SourceUri.ext_val (String.ofList_injective huri)
  have hsummary := Text.ext_val (String.ofList_injective hsummary)
  have htitle := Text.ext_val (String.ofList_injective htitle)
  have htopics := hlist htopics
  have hterms := hlist hterms
  cases a
  cases b
  simp_all

theorem textHash_injective {env : Env} (hsha : Function.Injective env.sha256) :
    Function.Injective (textHash env) := fun _ _ h => hsha (List.append_cancel_left h)

/-- A card that a call stored for a document like this. -/
structure CardOf (env : StoreEnv) (call : ReplaceCall) (doc : ResourceDocument) (card : DocumentCard) :
    Prop where
  stored : card ∈ call.cards
  docId : card.docId = doc.docId
  document : ∃ d ∈ call.resourceDocuments, d.docId = doc.docId ∧ d.resourceUri = doc.resourceUri ∧
    d.title = doc.title ∧ env.cardPrompt d.contentOrStructure = env.cardPrompt doc.contentOrStructure

/-- The card that is loaded is the one that the call stored. -/
theorem cardOf_of_loads (hsha : Function.Injective env.sha256) (hbuilt : Built env config call manifest)
    {files : CardFiles} {doc : ResourceDocument} {card : DocumentCard} {entry : ManifestEntry}
    {content : Content} (h : Loads env files ctx manifest doc card entry content) :
    CardOf env call doc card ∧ content = .card card ∧
      requireText (cardJsonUri config doc.docId.val) = some entry.cardJsonUri := by
  obtain ⟨hmem, hkey⟩ := of_byDocId h.found
  obtain ⟨d, hd, hentry⟩ : ∃ d ∈ call.resourceDocuments,
      buildEntry env config call.cards d = some entry := by
    exact exists_of_forall₂ hbuilt.entries.flip hmem
  obtain ⟨stored, hstored, hsame, hid, htitle, huri, hprompt, hhash, hjson⟩ := of_buildEntry hentry
  have hparsed := h.parsed
  rw [hbuilt.not_legacy] at hparsed
  have hcontent : content = .card card := by
    cases content with
    | card c => rw [← Option.some.inj hparsed]
    | legacyCard c => cases hparsed
    | manifest m => cases hparsed
    | other bytes => cases hparsed
  have heq : card = stored := by
    have hhash := textHash_injective hsha (h.hash.trans hhash)
    rw [hcontent] at hhash
    exact cardText_injective hhash
  have hdoc : d.docId = doc.docId := Text.ext_val (by rw [← hid]; exact hkey)
  refine ⟨⟨heq ▸ hstored, ?_, d, hd, hdoc, ?_, ?_, ?_⟩, hcontent, hdoc ▸ hjson⟩
  · rw [h.card_docId, hid, hdoc]
  · exact SourceUri.ext_val (huri.symm.trans h.resourceUri)
  · rw [← htitle, h.title]
  · exact textHash_injective hsha (hprompt.symm.trans (h.prompt hbuilt.not_legacy))

/-- **The cards that are loaded are those of one call.** -/
theorem cards_of_one_call (hsha : Function.Injective env.sha256) {calls : List ReplaceCall}
    {files : CardFiles} (hreached : Reached env config ctx calls files)
    (hread : readManifest env.toEnv config files ctx = .ok manifest)
    {documents : List ResourceDocument} {resourceUris : List Str} {cards : List DocumentCard}
    (hload : loadValidated env config files ctx manifest documents resourceUris = .ok cards) :
    ∃ call ∈ calls, List.Forall₂ (CardOf env call) documents cards := by
  have hfile : ∃ path, files path = some (.manifest manifest) := by
    rw [readManifest] at hread
    split at hread
    · cases hread
    · rename_i found hfound
      obtain rfl := Except.ok.inj hread
      obtain ⟨-, -, hfound⟩ := Option.bind_eq_some_iff.1 hfound
      obtain ⟨path, -, hpath⟩ := Option.bind_eq_some_iff.1 hfound
      exact ⟨path, hpath⟩
    · cases hread
  obtain ⟨path, hpath⟩ := hfile
  obtain ⟨call, hcall, hmanifest⟩ := manifest_of_reached hreached hpath
  have hbuilt := built_of_buildManifest hmanifest
  refine ⟨call, hcall, (loadValidated_eq_ok_iff.1 hload).2.imp fun doc card h => ?_⟩
  obtain ⟨entry, content, h⟩ := h
  exact (cardOf_of_loads hsha hbuilt h).1

end Sound

end OpenViking.Wiki
