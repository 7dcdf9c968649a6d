import Quire.JsonTokens
import Quire.Routes
import Quire.TokenLifetime

namespace Quire.SecretFetch
open JsonTokens UrlPath Routes Secret TokenLifetime

-- A response, with the value of its body where that is a SecretResponse.
structure Response where
  status : Nat
  value : Option String
  deriving DecidableEq, Repr

def HandlerError.status : HandlerError → Nat
  | .api .notFound => 404
  | .api .unauthorized => 401
  | .api .gone => 410
  | .api (.db _) | .secret _ => 500

def secretResponse : Except HandlerError String → Response
  | .ok value => ⟨200,some value⟩
  | .error error => ⟨HandlerError.status error,none⟩

-- The text after the server's address: base_url, then the path as it is given.
def secretUrl (name : String) : String := "/api/run" ++ "/" ++ ("secrets/" ++ name)

def secretFront : List Bytes := ["api","run","secrets"].map bytesOf

-- Nested at /api and /run: /secrets/{name}.
def secretRoute : Route := secretFront.map Part.literal ++ [.capture]

-- The server, past its check of the token. What other routes answer does not
-- depend on the secrets.
def respond (config : Config) (elsewhere : List Bytes → Response) (path : List Bytes) : Response :=
  match secretRoute.captures path with
  | some [segment] => match textOf (decode segment) with
    | some name => secretResponse (getSecret config name)
    | none => ⟨400,none⟩
  | _ => elsewhere path

def received (name : String) (response : Response) : Except Secret.Error String :=
  if 200 ≤ response.status ∧ response.status < 300 then
    match response.value with
    | some value => .ok value
    | none => .error (.resolve "error decoding response body")
  else if response.status = 404 then .error (.unknownSecret name)
  else .error (.resolve "HTTP status error")

-- `RunClient::fetch_secret`
def fetchSecret (get : List Bytes → Response) (name : String) : Except Secret.Error String :=
  received name (get (segments (bytesOf (secretUrl name))))

-- The lookup in the config, as the other side of the request has it.
def Agrees (config : Config) (elsewhere : List Bytes → Response) (name : String) : Prop :=
  (∀ value, getSecret config name = .ok value → fetchSecret (respond config elsewhere) name = .ok value) ∧
    (config.secrets.lookup name = none → fetchSecret (respond config elsewhere) name = .error (.unknownSecret name))

-- One segment that URL parsing leaves alone and decoding too.
def PlainName (name : String) : Prop := Unchanged (bytesOf name)

instance : DecidablePred PlainName := fun name => inferInstanceAs (Decidable (Unchanged (bytesOf name)))

theorem front_settled : ∀ segment ∈ secretFront, Settled segment := by
  have each : secretFront.all (fun segment => decide (Settled segment)) = true := by decide
  simpa using each

theorem url_bytes (name : String) : bytesOf (secretUrl name) = base secretFront ++ 47 :: bytesOf name := by
  have front : bytesOf "/api/run/secrets/" = base secretFront ++ [47] := by decide
  have text : secretUrl name = "/api/run/secrets/" ++ name := by
    rw [secretUrl,← String.append_assoc]
    rfl
  rw [text,bytes_append,front,List.append_assoc]
  rfl

theorem front_encoded : secretFront.map encode = secretFront := by decide

theorem captures_secret {path captured : List Bytes} (found : secretRoute.captures path = some captured) :
    ∃ segment, segment ≠ [] ∧ path = secretFront ++ [segment] ∧ captured = [segment] := captures_last found

theorem captures_segment {segment : Bytes} (full : segment ≠ []) :
    secretRoute.captures (secretFront ++ [segment]) = some [segment] := by
  rw [secretRoute,captures_literals,Route.captures,if_neg full]
  rfl

-- A config with one secret.
def single (name value : String) : Config := ⟨(∅ : AList fun _ : String => SecretString).insert name (.plain value),⟨fun _ => .error "",fun _ => .error (.resolve "")⟩⟩

theorem single_known (name value : String) : getSecret (single name value) name = .ok value := by
  have found : (single name value).secrets.lookup name = some (.plain value) := AList.lookup_insert _
  rw [getSecret,found]
  rfl

theorem single_other {name other : String} (different : other ≠ name) (value : String) :
    getSecret (single name value) other = .error (.api .notFound) := by
  have none : (single name value).secrets.lookup other = Option.none := AList.lookup_insert_ne different
  rw [getSecret,none]

-- The name arrives as it is where it is plain.
theorem respond_plain (plain : PlainName name) (config : Config) (elsewhere : List Bytes → Response) :
    respond config elsewhere (segments (bytesOf (secretUrl name))) = secretResponse (getSecret config name) := by
  obtain ⟨full,decoded,path⟩ := segments_unchanged front_settled plain
  rw [url_bytes,path,front_encoded,respond,captures_segment full]
  dsimp only
  rw [decoded,textOf_bytes]

theorem fetch_plain (plain : PlainName name) (config : Config) (elsewhere : List Bytes → Response) :
    Agrees config elsewhere name := by
  constructor
  · intro value known
    rw [fetchSecret,respond_plain plain,known]
    rfl
  · intro undeclared
    have missing : getSecret config name = .error (.api .notFound) := by rw [getSecret,undeclared]
    rw [fetchSecret,respond_plain plain,missing]
    rfl

-- What the server makes of a request for some other name, or for no name.
theorem respond_other (config : Config) (elsewhere : List Bytes → Response) {segment : Bytes} (full : segment ≠ []) :
    respond config elsewhere (secretFront ++ [segment]) = match textOf (decode segment) with
      | some name => secretResponse (getSecret config name)
      | none => ⟨400,none⟩ := by
  rw [respond,captures_segment full]

-- Where another name arrives, or the request goes elsewhere, some config tells
-- the answers apart.
theorem plain_of_agrees (elsewhere : List Bytes → Response) (agrees : ∀ config, Agrees config elsewhere name) :
    PlainName name := by
  have known : ∀ value, received name (respond (single name value) elsewhere (segments (bytesOf (secretUrl name)))) = .ok value :=
    fun value => (agrees (single name value)).1 value (single_known name value)
  cases found : secretRoute.captures (segments (bytesOf (secretUrl name))) with
  | none =>
    have same : ∀ config, respond config elsewhere (segments (bytesOf (secretUrl name))) =
        elsewhere (segments (bytesOf (secretUrl name))) := by
      intro config
      rw [respond,found]
    have first := known "a"
    have second := known "b"
    rw [same] at first second
    exact absurd (Except.ok.inj (first.symm.trans second)) (by decide)
  | some captured =>
    obtain ⟨segment,full,path,_⟩ := captures_secret found
    have answer := known "a"
    rw [path,respond_other _ _ full] at answer
    cases read : textOf (decode segment) with
    | none =>
      rw [read] at answer
      cases answer
    | some arrived =>
      by_cases same : arrived = name
      · rw [url_bytes,← front_encoded] at path
        have decoded : decode segment = bytesOf name := by rw [bytes_of_text read,same]
        exact unchanged_of_segments front_settled full path decoded
      · rw [read] at answer
        dsimp only at answer
        rw [single_other same] at answer
        cases answer

-- A secret is fetched by the name it is looked up by exactly where that is plain.
theorem fetch_agrees (elsewhere : List Bytes → Response) (name : String) :
    (∀ config, Agrees config elsewhere name) ↔ PlainName name :=
  ⟨plain_of_agrees elsewhere,fun plain config => fetch_plain plain config elsewhere⟩

-- Blanks inside, a percent sign alone and letters of any kind do no harm.
example : PlainName "café 100% {a}" := by decide +kernel

def sampleConfig : Config :=
  ⟨((∅ : AList fun _ : String => SecretString).insert "a" (.plain "one")).insert "a?b" (.plain "two"),
    ⟨fun _ => .error "",fun _ => .error (.resolve "")⟩⟩

-- What follows the question mark is taken for a query, so another secret comes.
theorem fetch_query (elsewhere : List Bytes → Response) :
    getSecret sampleConfig "a?b" = .ok "two" ∧ fetchSecret (respond sampleConfig elsewhere) "a?b" = .ok "one" := by
  have path : segments (bytesOf (secretUrl "a?b")) = secretFront ++ [bytesOf "a"] := by decide
  have read : textOf (decode (bytesOf "a")) = some "a" := by decide
  have known : getSecret sampleConfig "a" = .ok "one" := by
    have found : sampleConfig.secrets.lookup "a" = some (.plain "one") :=
      (AList.lookup_insert_ne (by decide)).trans (AList.lookup_insert _)
    rw [getSecret,found]
    rfl
  constructor
  · have found : sampleConfig.secrets.lookup "a?b" = some (.plain "two") := AList.lookup_insert _
    rw [getSecret,found]
    rfl
  · rw [fetchSecret,path,respond_other _ _ (by decide),read]
    dsimp only
    rw [known]
    rfl

theorem fetch_disagrees : ¬ ∀ config elsewhere name, Agrees config elsewhere name := by
  intro claimed
  obtain ⟨declared,fetched⟩ := fetch_query fun _ => ⟨404,none⟩
  have agreed := (claimed sampleConfig (fun _ => ⟨404,none⟩) "a?b").1 "two" declared
  rw [fetched] at agreed
  exact absurd (Except.ok.inj agreed) (by decide)

end Quire.SecretFetch
