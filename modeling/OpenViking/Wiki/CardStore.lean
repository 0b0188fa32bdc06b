import OpenViking.Common.JsonStrings
import OpenViking.Wiki.Schemas

/-!
# The cache of document cards

`DocumentCardStore` (`wiki/card_store.py`): a call of `replace` removes the directory of the cards, writes
a file for each card and last a manifest, and `load_validated` reads the cards of a manifest.  Files hold
the values whose JSON is written to them.  A call can be cut off after any of its steps; a step that the
backend refuses cuts it off as well.

* `Reached`: what calls of `replace` leave behind;
* `manifest_of_reached`: every manifest is the one of a call.
-/

namespace OpenViking.Wiki

open Fs

local instance Str.lawfulBEqCards : LawfulBEq Str := inferInstance

/-! ## Files -/

/-- What is in a file. -/
inductive Content where
  | card (card : DocumentCard)
  /-- A card of version 1, with the fields that later versions do not have. -/
  | legacyCard (card : DocumentCard)
  | manifest (manifest : Manifest)
  /-- No JSON of a card or a manifest. -/
  | other (bytes : Bytes)

/-- The files of the backend. -/
abbrev CardFiles := Path → Option Content

/-- What the store uses besides the files: the prompt of a card, the hash of the schema, and the sorted
JSON of what is in a file that is no card. -/
structure StoreEnv extends Env where
  cardPrompt : Str → Str
  schemaHash : Str
  otherText : Content → Str

/-- `json.dumps(value, ensure_ascii=False, sort_keys=True, separators=(",", ":"))` of a card. -/
def cardText (card : DocumentCard) : Str :=
  "\x7b\"candidate_topics\":".toList ++ (Json.arrayText (card.candidateTopics.map String.ofList) ++
    (",\"doc_id\":".toList ++ (Json.quote (String.ofList card.docId.val) ++
      (",\"important_terms\":".toList ++ (Json.arrayText (card.importantTerms.map String.ofList) ++
        (",\"resource_uri\":".toList ++ (Json.quote (String.ofList card.resourceUri.val) ++
          (",\"summary\":".toList ++ (Json.quote (String.ofList card.summary.val) ++
            (",\"title\":".toList ++ (Json.quote (String.ofList card.title.val) ++
              ['\x7d'])))))))))))

/-- The text that `_json_hash` hashes. -/
def dumps (env : StoreEnv) : Content → Str
  | .card card => cardText card
  | content => env.otherText content

/-- `_text_hash`. -/
def textHash (env : Env) (value : Str) : Str := "sha256:".toList ++ env.sha256 value

/-- `_json_hash` of what is in a file. -/
def jsonHash (env : StoreEnv) (content : Content) : Str := textHash env.toEnv (dumps env content)

/-- `_text_hash(build_document_card_prompt(doc))`. -/
def promptHash (env : StoreEnv) (doc : ResourceDocument) : Str :=
  textHash env.toEnv (env.cardPrompt doc.contentOrStructure)

/-! ## Building a manifest -/

/-- `CARD_MANIFEST_VERSION`. -/
def cardManifestVersion : ℕ := 2

/-- `DOCUMENT_CARD_PROMPT_VERSION`. -/
def documentCardPromptVersion : Str := "doc_card_v3".toList

/-- `LEGACY_CARD_MANIFEST_VERSION`. -/
def legacyCardManifestVersion : ℕ := 1

/-- `LEGACY_DOCUMENT_CARD_PROMPT_VERSION`. -/
def legacyDocumentCardPromptVersion : Str := "doc_card_v1".toList

/-- `LEGACY_DOCUMENT_CARD_SCHEMA_HASHES`. -/
def legacyDocumentCardSchemaHashes : List Str :=
  ["sha256:9a14daaa99dc90e92c3dfdba4af2721db035022e4c7b7c66fa02ef294aadfc30".toList]

/-- A reason of the error that the cache is missing or stale. -/
inductive Reason where
  | duplicate (label : String) (docIds : List Str)
  | generatedCardIds
  | manifestMissing (uri : Str)
  | manifestInvalid
  | manifestVersion (cached : ℕ)
  | pipelineVersion (cached current : Str)
  | schemaChanged
  | promptVersion
  | resourceRoots
  | cardsMissing (docIds : List Str)
  | staleCards (docIds : List Str)
  | documentIdentity (docId : Str)
  | prompt (docId : Str)
  | cardHash (docId : Str)
  | cardInvalid (docId : Str)
  | cardIdentity (docId : Str)
  deriving DecidableEq

/-- What a call raises before it changes anything. -/
inductive BuildError where
  | stale (reasons : List Reason)
  | invalid
  deriving DecidableEq

/-- `sorted(set(ids))`. -/
def sortedSet (ids : List Str) : List Str :=
  ids.dedup.mergeSort fun a b => decide (String.ofList a ≤ String.ofList b)

/-- The keys that come again. -/
def duplicates {α : Type*} (key : α → Str) : List Str → List α → List Str
  | _, [] => []
  | seen, item :: items =>
    if key item ∈ seen then key item :: duplicates key seen items
    else duplicates key (key item :: seen) items

/-- The error of `_unique_by_doc_id`. -/
def uniqueByDocId {α : Type*} (key : α → Str) (label : String) (items : List α) : List Reason :=
  if duplicates key [] items = [] then []
  else [.duplicate label (sortedSet (duplicates key [] items))]

/-- The item of a key in the result of `_unique_by_doc_id`: the last. -/
def byDocId {α : Type*} (key : α → Str) (docId : Str) (items : List α) : Option α :=
  items.reverse.find? fun item => key item = docId

/-- The arguments of `replace`. -/
structure ReplaceCall where
  cards : List DocumentCard
  resourceDocuments : List ResourceDocument
  resourceUris : List Str
  cardInputMode : String
  maxCardInputChars : ℤ

def DocumentCard.key (card : DocumentCard) : Str := card.docId.val

def ResourceDocument.key (doc : ResourceDocument) : Str := doc.docId.val

def ManifestEntry.key (entry : ManifestEntry) : Str := entry.docId.val

/-- The entry of a document. -/
def buildEntry (env : StoreEnv) (config : WikiConfig) (cards : List DocumentCard)
    (doc : ResourceDocument) : Option ManifestEntry :=
  (byDocId DocumentCard.key doc.docId.val cards).bind fun card =>
    (requireResourceUri doc.resourceUri.val).bind fun resourceUri =>
      (requireText (cardJsonUri config doc.docId.val)).map fun uri =>
        ⟨doc.docId, resourceUri, doc.title, promptHash env doc, jsonHash env (.card card), uri⟩

/-- The modes of the input of a card. -/
def cardInputModes : List String := ["summary", "raw_chunk"]

/-- The reasons of `_build_manifest` (173-190). -/
def buildReasons (call : ReplaceCall) : List Reason :=
  let docIds := call.resourceDocuments.map ResourceDocument.key
  let cardIds := call.cards.map DocumentCard.key
  uniqueByDocId ResourceDocument.key "resource documents" call.resourceDocuments ++
    uniqueByDocId DocumentCard.key "document cards" call.cards ++
    if (∀ docId ∈ docIds, docId ∈ cardIds) ∧ ∀ docId ∈ cardIds, docId ∈ docIds then []
    else [.generatedCardIds]

/-- `_build_manifest` (173-216). -/
def buildManifest (env : StoreEnv) (config : WikiConfig) (call : ReplaceCall) :
    Except BuildError Manifest :=
  if buildReasons call ≠ [] then .error (.stale (buildReasons call))
  else
    match call.resourceDocuments.mapM (buildEntry env config call.cards),
      requireText config.pipelineVersion, call.resourceUris.mapM requireResourceUri with
    | some entries, some pipelineVersion, some resourceUris =>
      if call.cardInputMode ∈ cardInputModes ∧ 0 < call.maxCardInputChars then
        .ok ⟨cardManifestVersion, pipelineVersion, documentCardPromptVersion, env.schemaHash,
          call.cardInputMode, call.maxCardInputChars, resourceUris, entries⟩
      else .error .invalid
    | _, _, _ => .error .invalid

/-! ## Replacing the cards -/

/-- A step of a call. -/
inductive FsStep where
  | remove (path : Path)
  | write (path : Path) (content : Content)

/-- A path to which a URI is written. -/
def writePath (env : Env) (uri : Str) (ctx : RequestContext) : Option Path :=
  match canonicalizeUri uri ctx with
  | .error _ => none
  | .ok uri => (ensureMutableAccess env uri ctx).toOption.bind fun _ => (uriToPath env uri ctx).toOption

/-- The directory that `rm` removes. -/
def cacheRoot (env : Env) (config : WikiConfig) (ctx : RequestContext) : Option Path :=
  (ensureDeleteAccess env (cardsDir config) ctx).toOption.bind fun _ =>
    (uriToPath env (cardsDir config) ctx).toOption

/-- `write_json` to a URI; a step that raises is none. -/
def writeJson (env : Env) (ctx : RequestContext) (uri : Str) (content : Content) : Option FsStep :=
  (writePath env uri ctx).map fun path => .write path content

/-- The steps of a call that found these files to remove (47-76). -/
def replaceSteps (env : StoreEnv) (config : WikiConfig) (ctx : RequestContext) (call : ReplaceCall)
    (manifest : Manifest) (removed : List Path) : List (Option FsStep) :=
  removed.map (fun path => some (.remove path)) ++
    call.cards.map (fun card =>
      writeJson env.toEnv ctx (cardJsonUri config card.docId.val) (.card card)) ++
    [writeJson env.toEnv ctx (cardManifestUri config) (.manifest manifest)]

def FsStep.run : FsStep → CardFiles → CardFiles
  | .remove path, files => Function.update files path none
  | .write path content, files => Function.update files path (some content)

/-- The steps until one raises, and whether none did. -/
def runSteps : List (Option FsStep) → CardFiles → CardFiles × Bool
  | [], files => (files, true)
  | none :: _, files => (files, false)
  | some step :: steps, files => runSteps steps (step.run files)

/-- The files below a directory, in the order in which they are removed. -/
structure Removal (files : CardFiles) (dir : Path) (removed : List Path) : Prop where
  below : ∀ path ∈ removed, dir <+: path
  complete : ∀ path, dir <+: path → files path ≠ none → path ∈ removed

/-- A call that is cut off after a number of steps. -/
inductive Replaced (env : StoreEnv) (config : WikiConfig) (ctx : RequestContext) (call : ReplaceCall)
    (files : CardFiles) : CardFiles → Prop where
  | refused (error : BuildError) (h : buildManifest env config call = .error error) :
    Replaced env config ctx call files files
  | cut (manifest : Manifest) (dir : Path) (removed : List Path) (n : ℕ)
    (h : buildManifest env config call = .ok manifest) (hdir : cacheRoot env.toEnv config ctx = some dir)
    (hremoved : Removal files dir removed) : Replaced env config ctx call files
      (runSteps ((replaceSteps env config ctx call manifest removed).take n) files).1

/-- What calls leave behind, one after another. -/
inductive Reached (env : StoreEnv) (config : WikiConfig) (ctx : RequestContext) :
    List ReplaceCall → CardFiles → Prop where
  | start (files : CardFiles) (h : ∀ path manifest, files path ≠ some (.manifest manifest)) :
    Reached env config ctx [] files
  | call {calls : List ReplaceCall} {files files' : CardFiles} (call : ReplaceCall)
    (h : Reached env config ctx calls files) (hcall : Replaced env config ctx call files files') :
    Reached env config ctx (calls ++ [call]) files'

/-- A call that finished. -/
def Finished (env : StoreEnv) (config : WikiConfig) (ctx : RequestContext) (call : ReplaceCall)
    (files files' : CardFiles) : Prop :=
  ∃ manifest dir removed, buildManifest env config call = .ok manifest ∧
    cacheRoot env.toEnv config ctx = some dir ∧ Removal files dir removed ∧
    runSteps (replaceSteps env config ctx call manifest removed) files = (files', true)

/-! ## Loading the cards -/

/-- `read_file`. -/
def readContent (env : Env) (files : CardFiles) (uri : Str) (ctx : RequestContext) : Option Content :=
  (ensureAccess env uri ctx).toOption.bind fun _ =>
    (uriToPath env uri ctx).toOption.bind files

/-- `read_manifest` (78-93). -/
def readManifest (env : Env) (config : WikiConfig) (files : CardFiles) (ctx : RequestContext) :
    Except (List Reason) Manifest :=
  match readContent env files (cardManifestUri config) ctx with
  | none => .error [.manifestMissing (cardManifestUri config)]
  | some (.manifest manifest) => .ok manifest
  | some _ => .error [.manifestInvalid]

/-- A manifest of version 1. -/
def isLegacyManifest (manifest : Manifest) : Bool :=
  decide (manifest.version = legacyCardManifestVersion ∧
    manifest.promptVersion = legacyDocumentCardPromptVersion ∧
    manifest.schemaHash ∈ legacyDocumentCardSchemaHashes)

/-- A reason, if something is not as it should be. -/
def reasonIf (p : Prop) [Decidable p] (reason : Reason) : List Reason := if p then [reason] else []

/-- The reasons that are about the whole manifest (102-132). -/
def manifestReasons (env : StoreEnv) (config : WikiConfig) (manifest : Manifest)
    (documents : List ResourceDocument) (resourceUris : List Str) : List Reason :=
  let legacy := isLegacyManifest manifest
  let docIds := documents.map ResourceDocument.key
  let entryIds := manifest.entries.map ManifestEntry.key
  reasonIf (manifest.version ≠ cardManifestVersion ∧ ¬ legacy) (.manifestVersion manifest.version) ++
    reasonIf (manifest.pipelineVersion.val ≠ config.pipelineVersion)
      (.pipelineVersion manifest.pipelineVersion.val config.pipelineVersion) ++
    reasonIf (manifest.schemaHash ≠ env.schemaHash ∧ ¬ legacy) .schemaChanged ++
    reasonIf (manifest.promptVersion ≠ documentCardPromptVersion ∧ ¬ legacy) .promptVersion ++
    reasonIf (manifest.resourceUris.map (fun uri => uri.val) ≠ resourceUris) .resourceRoots ++
    uniqueByDocId ResourceDocument.key "resource documents" documents ++
    uniqueByDocId ManifestEntry.key "card manifest entries" manifest.entries ++
    reasonIf (∃ docId ∈ docIds, docId ∉ entryIds)
      (.cardsMissing (sortedSet (docIds.filter (· ∉ entryIds)))) ++
    reasonIf (∃ docId ∈ entryIds, docId ∉ docIds)
      (.staleCards (sortedSet (entryIds.filter (· ∉ docIds))))

/-- What a file gives as a card, with `LEGACY_CARD_FIELDS` left out of one of version 1. -/
def parseCard (legacy : Bool) : Content → Option DocumentCard
  | .card card => some card
  | .legacyCard card => if legacy then some card else none
  | _ => none

/-- The reasons and the card of a document (135-166). -/
def loadCard (env : StoreEnv) (files : CardFiles) (ctx : RequestContext) (manifest : Manifest)
    (doc : ResourceDocument) : List Reason × Option DocumentCard :=
  match byDocId ManifestEntry.key doc.docId.val manifest.entries with
  | none => ([], none)
  | some entry =>
    let legacy := isLegacyManifest manifest
    let reasons :=
      reasonIf (entry.resourceUri.val ≠ doc.resourceUri.val ∨ entry.title ≠ doc.title)
        (.documentIdentity doc.docId.val) ++
      reasonIf (¬ legacy ∧ entry.promptHash ≠ promptHash env doc) (.prompt doc.docId.val)
    match readContent env.toEnv files entry.cardJsonUri.val ctx with
    | none => (reasons ++ [.cardInvalid doc.docId.val], none)
    | some content =>
      let reasons := reasons ++ reasonIf (jsonHash env content ≠ entry.cardHash)
        (.cardHash doc.docId.val)
      match parseCard legacy content with
      | none => (reasons ++ [.cardInvalid doc.docId.val], none)
      | some card =>
        (reasons ++ reasonIf (card.docId ≠ entry.docId ∨
            card.resourceUri.val ≠ entry.resourceUri.val ∨ card.title ≠ entry.title)
          (.cardIdentity doc.docId.val), some card)

/-- `load_validated` (95-171). -/
def loadValidated (env : StoreEnv) (config : WikiConfig) (files : CardFiles) (ctx : RequestContext)
    (manifest : Manifest) (documents : List ResourceDocument) (resourceUris : List Str) :
    Except (List Reason) (List DocumentCard) :=
  let loaded := documents.map (loadCard env files ctx manifest)
  let reasons := manifestReasons env config manifest documents resourceUris ++
    loaded.flatMap Prod.fst
  if reasons ≠ [] then .error reasons else .ok (loaded.filterMap Prod.snd)

end OpenViking.Wiki
