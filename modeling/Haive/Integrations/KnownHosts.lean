import Haive.Lib.Units

/-!
# Forges and their hosts

Whether a stored credential fits the remote of a repository, as `shared/src/forge/known-hosts.ts` decides it,
over UTF-16 code units. The URL parser and the lower case of a text are a parameter.
-/

namespace Haive.Integrations

open Lib.Units

abbrev Text := List UInt16

/-- What `new URL(text)` tells of the host; `host` has the port, `hostname` has not. -/
structure UrlHost where
  protocol : Text
  host : Text
  hostname : Text

structure Urls where
  parse : Text → Option UrlHost
  toLowerCase : Text → Text

inductive ForgeProviderName
  | github
  | gitea
  | gitlab
  | bitbucket_cloud
  | bitbucket_server
  deriving DecidableEq

def ForgeProviderName.name : ForgeProviderName → Text
  | github => units "github"
  | gitea => units "gitea"
  | gitlab => units "gitlab"
  | bitbucket_cloud => units "bitbucket_cloud"
  | bitbucket_server => units "bitbucket_server"

def ForgeProviderName.all : List ForgeProviderName := [github, gitea, gitlab, bitbucket_cloud, bitbucket_server]

/-- The forge of that name, by the schema and by the registry alike. -/
def forgeNamed (name : Text) : Option ForgeProviderName := ForgeProviderName.all.find? (·.name = name)

structure Credential where
  provider : Option Text
  host : Text

def KNOWN_HOST_PROVIDERS : List (Text × ForgeProviderName) :=
  [(units "github.com", .github), (units "gitlab.com", .gitlab), (units "codeberg.org", .gitea),
    (units "bitbucket.org", .bitbucket_cloud)]

section Urls

variable (urls : Urls)

def inferForgeProviderFromHost (host : Text) : Option ForgeProviderName :=
  KNOWN_HOST_PROVIDERS.lookup (urls.toLowerCase (trim host))

def credentialForgeProvider (provider : Option Text) (host : Text) : Option ForgeProviderName :=
  match provider.bind forgeNamed with
  | some forge => some forge
  | none => inferForgeProviderFromHost urls host

def hostOf (url : UrlHost) : Text :=
  urls.toLowerCase (if url.protocol = units "https:" ∨ url.protocol = units "http:" then url.host else url.hostname)

def isAsciiLetter (u : UInt16) : Bool := (0x41 ≤ u && u ≤ 0x5a) || (0x61 ≤ u && u ≤ 0x7a)

def isAsciiDigit (u : UInt16) : Bool := 0x30 ≤ u && u ≤ 0x39

/-- `/^[a-z][a-z0-9+.-]*:\/\//i`. -/
def startsWithScheme : Text → Bool
  | [] => false
  | u :: rest =>
    isAsciiLetter u && (units "://").isPrefixOf
      (rest.dropWhile fun u => isAsciiLetter u || isAsciiDigit u || u = 0x2b || u = 0x2e || u = 0x2d)

/-- `/^([^:/]+):/`. -/
def hostBeforeColon (text : Text) : Option Text :=
  let host := text.takeWhile fun u => u ≠ 0x3a && u ≠ 0x2f
  if host ≠ [] ∧ (text.drop host.length).head? = some 0x3a then some host else none

/-- `/^(?:[^@]+@)?([^:/]+):/`. -/
def scpHost (text : Text) : Option Text :=
  let user := text.takeWhile (· ≠ 0x40)
  let behind := if user ≠ [] ∧ user ≠ text then hostBeforeColon (text.drop (user.length + 1)) else none
  behind.or (hostBeforeColon text)

def hostFromRemote (remoteUrl : Text) : Text :=
  let trimmed := trim remoteUrl
  if startsWithScheme trimmed then ((urls.parse trimmed).map (hostOf urls)).getD []
  else urls.toLowerCase ((scpHost trimmed).getD [])

/-- `host.replace(/:\d+$/, '')`. -/
def withoutPort (host : Text) : Text :=
  let digits := host.reverse.takeWhile isAsciiDigit
  match host.reverse.drop digits.length with
  | 0x3a :: front => if digits ≠ [] then front.reverse else host
  | _ => host

/-- `/^https?:\/\//i`. -/
def startsWithHttp (text : Text) : Bool :=
  let lowered := text.map fun u => if 0x41 ≤ u && u ≤ 0x5a then u + 32 else u
  (units "http://").isPrefixOf lowered || (units "https://").isPrefixOf lowered

def credentialUsableForPr (c : Credential) (originUrl : Option Text) : Bool :=
  match originUrl with
  | none | some [] => false
  | some originUrl =>
    let originHost := hostFromRemote urls originUrl
    match inferForgeProviderFromHost urls originHost with
    | some repoForge =>
      credentialForgeProvider urls c.provider c.host = some repoForge &&
        inferForgeProviderFromHost urls (withoutPort c.host) = some repoForge
    | none =>
      let credHost := if startsWithHttp (trim originUrl) then c.host else withoutPort c.host
      urls.toLowerCase credHost = urls.toLowerCase originHost && (c.provider.bind forgeNamed).isSome

def connectionCredentialFits (providerId : Text) (c : Credential) (originUrl : Option Text) : Bool :=
  match forgeNamed providerId with
  | some forge =>
    if credentialForgeProvider urls c.provider c.host ≠ some forge then false
    else credentialUsableForPr urls c originUrl
  | none => credentialUsableForPr urls c originUrl

end Urls

end Haive.Integrations
