/-
# Connecting accounts

The handlers of `oauth.rs`: the two halves of the OAuth flow, the connections with
a secret, and the listing and deletion of connections.
-/
import EvglApi.Api

open Concurrency

namespace Service

open Api Tries

variable (env : Deployment)

/-- `hash_state`; the PKCE challenge of a verifier is computed in the same way. -/
def hashState (value : String) : String :=
  String.ofList (Base64.encode Base64.urlSafe (env.sha256 value.toUTF8.toList))

/-- The early return with an error of the provider. -/
def ofProviderError (error : ProviderError) : ApiError :=
  .provider (env.displayProviderError error)

/-- The early return with an error of the vault. -/
def ofVaultError (error : String) : ApiError := .internal (.vault error)

namespace Oauth

def start (self : ℕ) (userId : Uuid) (provider : String) : Api Response := do
  let provider ← result ((env.fromStr provider).mapError .badRequest)
  match env.providers provider with
  | none => throw (.conflict (env.displayProvider provider ++ " is not configured"))
  | some adapter =>
      if adapter.oauth = false then
        throw (.badRequest
          (env.displayProvider provider ++ " uses a manual or secret-based connection flow"))
      else do
        let stateToken ← stmt (.randomUrlsafe 32)
        let verifier ← stmt (.randomUrlsafe 48)
        let challenge := hashState env verifier
        let oauth ← result
          ((adapter.authorizationUrl stateToken (some challenge)).mapError (ofProviderError env))
        Store.createOauthSession env self (hashState env stateToken) userId provider
          (some verifier) oauth.usesPkce
        pure (.authorization provider oauth.authorizationUrl 600)

/-- The loop of `callback` over the accounts; the result is the number of connections. -/
def connectAccounts (userId : Uuid) (provider : ProviderKind) (tokens : TokenSet) :
    List Account → Api ℕ
  | [] => pure 0
  | account :: rest => do
      let accountTokens := account.tokenOverride.getD tokens
      let aad := aadOf userId (env.displayProvider provider) account.accountKey
      let envelope ← attempt ofVaultError (.encrypt aad accountTokens)
      let _ ← Store.upsertConnection env userId provider account.accountKey account.displayName
        account.metadata envelope
      let connected ← connectAccounts userId provider tokens rest
      pure (connected + 1)

def callback (self : ℕ) (providerPath : String) (query : CallbackQuery) : Api Response :=
  match query.error with
  | some error =>
      throw (.unauthorized
        ("provider authorization failed: " ++ error ++ ": " ++ query.errorDescription.getD ""))
  | none => do
      let session ← Store.consumeOauthSession self (hashState env query.state)
      let provider ← result ((env.fromStr session.provider).mapError fun e =>
        .internal (.providerName e))
      let pathProvider ← result ((env.fromStr providerPath).mapError .badRequest)
      if provider ≠ pathProvider then throw (.unauthorized "OAuth provider mismatch")
      else if (env.providers provider).isNone then
        throw (.conflict (env.displayProvider provider ++ " is not configured"))
      else
        match query.code with
        | none => throw (.badRequest "missing OAuth code")
        | some code => do
            let verifier := if session.usesPkce then session.pkceVerifier else none
            let tokens ← attempt (ofProviderError env) (.exchangeCode self provider code verifier)
            let accounts ← attempt (ofProviderError env) (.resolveAccounts provider tokens)
            let connected ← connectAccounts env session.userId provider tokens accounts
            let destination ← result (env.integrationsUrl.mapError fun e => .internal (.url e))
            pure (.redirect destination (env.asStr provider) connected)

/-! ## Webhook endpoints -/

/-- `Ipv4Addr::is_private`. -/
def isPrivate (a : BitVec 32) : Bool :=
  a.extractLsb' 24 8 == 10 || a.extractLsb' 20 12 == 0xac1 || a.extractLsb' 16 16 == 0xc0a8

/-- `Ipv4Addr::is_documentation`. -/
def isDocumentation (a : BitVec 32) : Bool :=
  a.extractLsb' 8 24 == 0xc00002 || a.extractLsb' 8 24 == 0xc63364 || a.extractLsb' 8 24 == 0xcb0071

/-- `blocked_ipv4`: private, loopback, link-local, broadcast, documentation, unspecified. -/
def blockedIpv4 (a : BitVec 32) : Bool :=
  isPrivate a || a.extractLsb' 24 8 == 127 || a.extractLsb' 16 16 == 0xa9fe || a == 0xffffffff ||
    isDocumentation a || a == 0

/-- `Ipv6Addr::to_ipv4_mapped`. -/
def toIpv4Mapped (a : BitVec 128) : Option (BitVec 32) :=
  if a.extractLsb' 32 96 = 0xffff then some (a.extractLsb' 0 32) else none

/-- `blocked_ipv6`: loopback, unspecified, unique local, unicast link-local, or mapped
from a blocked address. -/
def blockedIpv6 (a : BitVec 128) : Bool :=
  a == 1 || a == 0 || a.extractLsb' 121 7 == 0x7e || a.extractLsb' 118 10 == 0x3fa ||
    (toIpv4Mapped a).any blockedIpv4

/-- Whether the host is a blocked address; the local host is refused by name. -/
def blockedHost : Option Host → Except ApiError Bool
  | none => .error (.badRequest "webhook endpoint must include a host")
  | some (.domain host) =>
      if host.toLower = "localhost" ∨ ".localhost".toList.isSuffixOf host.toList then
        .error (.badRequest "webhook endpoint cannot target localhost")
      else .ok false
  | some (.ipv4 address) => .ok (blockedIpv4 address)
  | some (.ipv6 address) => .ok (blockedIpv6 address)

def validateWebhookEndpoint (endpoint : Url) : Except ApiError Unit :=
  if endpoint.scheme ≠ "https" then .error (.badRequest "webhook endpoint must use HTTPS")
  else do
    let blocked ← blockedHost endpoint.host
    if blocked then
      .error (.badRequest "webhook endpoint cannot target a private or local address")
    else .ok ()

/-- The checks of `create_manual` for a webhook. -/
def checkWebhook (input : ManualConnectionInput) : Except ApiError Unit :=
  match (input.metadata.get "endpoint").bind Value.asStr with
  | none => .error (.badRequest "metadata.endpoint is required")
  | some endpoint => do
      let parsed ← (env.parseUrl endpoint).mapError fun _ =>
        .badRequest "metadata.endpoint is invalid"
      validateWebhookEndpoint parsed
      if input.secret.all fun secret => secret.utf8ByteSize < 32 then
        .error (.badRequest "generic_webhook requires a secret containing at least 32 characters")
      else .ok ()

/-! ## Connections -/

/-- The secret of a manual connection, drawn if the client sends none. -/
def manualSecret : Option String → Api String
  | some secret => pure secret
  | none => stmt (.randomUrlsafe 32)

def createManual (userId : Uuid) (input : ManualConnectionInput) : Api Response :=
  match env.providers input.provider with
  | none => throw (.conflict (env.displayProvider input.provider ++ " is unavailable"))
  | some adapter =>
      if adapter.oauth then
        throw (.badRequest "use the OAuth start route for this provider")
      else if trimIsEmpty input.accountKey ∨ trimIsEmpty input.displayName then
        throw (.badRequest "account_key and display_name are required")
      else do
        result (if input.provider = .genericWebhook then checkWebhook env input else .ok ())
        let secret ← manualSecret input.secret
        let tokens : TokenSet :=
          { accessToken := secret, refreshToken := none, expiresAt := none, scopes := []
            providerData := .null }
        let aad := aadOf userId (env.displayProvider input.provider) input.accountKey
        let envelope ← attempt ofVaultError (.encrypt aad tokens)
        let row ← Store.upsertConnection env userId input.provider input.accountKey
          input.displayName input.metadata envelope
        pure (.connection row)

def listConnections (userId : Uuid) : Api Response := do
  let rows ← Store.listConnections userId
  pure (.connections rows)

def deleteConnection (userId id : Uuid) : Api Response := do
  Store.deleteConnection userId id
  pure .noContent

end Oauth

end Service
