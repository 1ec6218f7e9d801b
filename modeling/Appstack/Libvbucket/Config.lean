import Mathlib

-- `vbucket.c`. Allocations succeed, and the hash functions are whatever they are.

namespace Appstack.Libvbucket

abbrev Bytes := List UInt8

/-- What cJSON hands out; of a number only `valueint` is read. -/
inductive Json
  | null
  | bool (b : Bool)
  | number (valueint : ℤ)
  | string (s : Bytes)
  | array (items : List Json)
  | object (members : List (String × Json))

/-- `cJSON_GetObjectItem`, which does not mind the case of names. -/
def Json.getObjectItem (j : Json) (name : String) : Option Json :=
  match j with
  | .object ms => (ms.find? fun m => m.1.toLower == name.toLower).map Prod.snd
  | _ => none

def bytes (s : String) : Bytes := s.toUTF8.toList

structure Hashes where
  crc32 : Bytes → UInt32
  md5 : Bytes → Fin 16 → UInt8

structure Item where
  index : ℕ
  point : UInt32
  deriving DecidableEq, Repr

/-- `qsort` with `continuum_item_cmp`: it may leave equal points in any order. -/
structure Qsort where
  sort : List Item → List Item
  perm : ∀ l, (sort l).Perm l
  sorted : ∀ l, (sort l).Pairwise fun a b => a.point ≤ b.point

structure Server where
  authority : Bytes
  couchdbApiBase : Option Bytes
  deriving DecidableEq, Repr

inductive Distribution
  | vbucket | ketama
  deriving DecidableEq, Repr

/-- `vbucket_config_st`. A row of a vbucket map has the servers that the parser has filled in. -/
structure Config where
  distribution : Distribution
  numVbuckets : ℕ
  mask : ℕ
  numServers : ℕ
  numReplicas : ℤ
  user : Option Bytes
  password : Option Bytes
  continuum : Option (List Item)
  servers : List Server
  fvbuckets : Option (List (List ℤ))
  vbuckets : Option (List (List ℤ))
  deriving DecidableEq, Repr

/-- The parser gives up with a message, or it is not defined what happens. -/
inductive ParseError
  | rejected (errstr : String)
  | undefined
  deriving DecidableEq, Repr

def maxReplicas : ℤ := 4

def maxAuthoritySize : ℕ := 100

/-- `get_node_authority`: the host name up to a colon, and the port, in a buffer that has room for
a colon and five digits after the name. -/
def getNodeAuthority (node : Json) : Except ParseError Bytes :=
  match node.getObjectItem "hostname" with
  | some (.string hostname) =>
    match node.getObjectItem "ports" with
    | some (.object ports) =>
      match (Json.object ports).getObjectItem "direct" with
      | some (.number port) =>
        .ok (((hostname.take (maxAuthoritySize - 7 - 1)).takeWhile (· ≠ 58)) ++
          ((58 : UInt8) :: bytes (toString port)).take 6)
      | _ => .error (.rejected "Expected number for node's direct port")
    | _ => .error (.rejected "Expected json object for node's ports")
  | _ => .error (.rejected "Expected string for node's hostname")

def populateServers (c : List Json) : Except ParseError (List Server) :=
  c.mapM fun j =>
    match j with
    | .string s => .ok ⟨s, none⟩
    | _ => .error (.rejected "Expected array of strings for serverList")

/-- `lookup_server_struct`; a node that names no authority is skipped like an unknown one. -/
def lookupServerStruct (servers : List Server) (node : Json) : Option ℕ :=
  match getNodeAuthority node with
  | .ok authority => servers.findIdx? fun s => s.authority = authority
  | .error _ => none

def updateServer (servers : List Server) (node : Json) : Except ParseError (List Server) :=
  match node with
  | .object _ =>
    match lookupServerStruct servers node with
    | none => .ok servers
    | some idx =>
      match node.getObjectItem "couchApiBase" with
      | none => .ok servers
      | some (.string value) =>
        .ok (servers.modify idx fun s => { s with couchdbApiBase := some value })
      -- `strdup` of no string
      | some _ => .error .undefined
  | _ => .error (.rejected "Expected json object for nodes array item")

def updateServerInfo (servers : List Server) (nodes : List Json) :
    Except ParseError (List Server) :=
  nodes.foldlM updateServer servers

def serverId (numServers : ℕ) (j : Json) : Except ParseError ℤ :=
  match j with
  | .number n =>
    if n < -1 ∨ (numServers : ℤ) ≤ n then
      .error (.rejected "Server ID must be >= -1 and < num_servers")
    else .ok n
  | _ => .error (.rejected "Server ID must be >= -1 and < num_servers")

def populateBucket (numServers : ℕ) (numReplicas : ℤ) (j : Option Json) :
    Except ParseError (List ℤ) :=
  match j with
  | some (.array js) =>
    if (js.length : ℤ) ≠ numReplicas + 1 then
      .error (.rejected
        "Expected array of arrays each with numReplicas + 1 ints for vBucketMap")
    else js.mapM (serverId numServers)
  | _ => .error (.rejected
      "Expected array of arrays each with numReplicas + 1 ints for vBucketMap")

def populateBuckets (numServers : ℕ) (numReplicas : ℤ) (numVbuckets : ℕ) (js : List Json) :
    Except ParseError (List (List ℤ)) :=
  (List.range numVbuckets).mapM fun i => populateBucket numServers numReplicas js[i]?

/-- The server map may stand in an envelope. -/
def serverMap (c : Json) : Json :=
  match c.getObjectItem "vBucketServerMap" with
  | some (.object ms) => .object ms
  | _ => c

def parseNumReplicas (config : Json) : Except ParseError ℤ :=
  match config.getObjectItem "numReplicas" with
  | some (.number n) =>
    if n > maxReplicas then .error (.rejected "Expected number <= MAX_REPLICAS for numReplicas")
    else .ok n
  | _ => .error (.rejected "Expected number <= MAX_REPLICAS for numReplicas")

def parseServerList (config : Json) : Except ParseError (List Server) :=
  match config.getObjectItem "serverList" with
  | some (.array js) =>
    if js.length = 0 then .error (.rejected "Empty serverList") else populateServers js
  | _ => .error (.rejected "Expected array for serverList")

def parseNodes (c : Json) (servers : List Server) : Except ParseError (List Server) :=
  match c.getObjectItem "nodes" with
  | none => .ok servers
  | some (.array nodes) => updateServerInfo servers nodes
  | some _ => .error (.rejected "Expected array for nodes")

def parseBucketMap (config : Json) : Except ParseError (List Json) :=
  match config.getObjectItem "vBucketMap" with
  | some (.array js) =>
    if js.length = 0 ∨ js.length &&& (js.length - 1) ≠ 0 then
      .error (.rejected "Number of buckets must be a power of two > 0 and <= MAX_BUCKETS")
    else .ok js
  | _ => .error (.rejected "Expected array for vBucketMap")

def parseForwardMap (config : Json) (numServers : ℕ) (numReplicas : ℤ) (numVbuckets : ℕ) :
    Except ParseError (Option (List (List ℤ))) :=
  match config.getObjectItem "vBucketMapForward" with
  | none => .ok none
  | some (.array js) => do
    let rows ← populateBuckets numServers numReplicas numVbuckets js
    .ok (some rows)
  | some _ => .error (.rejected "Expected array for vBucketMapForward")

def parseVbucketConfig (vb : Config) (c : Json) : Except ParseError Config := do
  let config := serverMap c
  let numReplicas ← parseNumReplicas config
  let servers ← parseServerList config
  let servers' ← parseNodes c servers
  let buckets ← parseBucketMap config
  let rows ← populateBuckets servers.length numReplicas buckets.length buckets
  let frows ← parseForwardMap config servers.length numReplicas buckets.length
  .ok { vb with
    numReplicas
    numServers := servers.length
    servers := servers'
    numVbuckets := buckets.length
    mask := buckets.length - 1
    vbuckets := some rows
    fvbuckets := frows }

def digestPoint (digest : Fin 16 → UInt8) (nn : Fin 4) : UInt32 :=
  (digest ⟨3 + nn * 4, by omega⟩).toUInt32 <<< 24 |||
    (digest ⟨2 + nn * 4, by omega⟩).toUInt32 <<< 16 |||
    (digest ⟨1 + nn * 4, by omega⟩).toUInt32 <<< 8 |||
    (digest ⟨nn * 4, by omega⟩).toUInt32

/-- The 160 points of a server: 40 hashes, 4 numbers per hash. -/
def serverPoints (h : Hashes) (authority : Bytes) : List UInt32 :=
  (List.range 40).flatMap fun hh =>
    (List.finRange 4).map (digestPoint (h.md5 (authority ++ bytes "-" ++ bytes (toString hh))))

def continuumItems (h : Hashes) (authorities : List Bytes) : List Item :=
  authorities.zipIdx.flatMap fun x => (serverPoints h x.1).map fun p => ⟨x.2, p⟩

def updateKetamaContinuum (h : Hashes) (q : Qsort) (authorities : List Bytes) : List Item :=
  q.sort (continuumItems h authorities)

def parseKetamaConfig (h : Hashes) (q : Qsort) (vb : Config) (config : Json) :
    Except ParseError Config :=
  match config.getObjectItem "nodes" with
  | some (.array nodes) =>
    if nodes.length = 0 then .error (.rejected "Empty serverList")
    else do
      let authorities ← nodes.mapM fun node =>
        match node with
        | .object _ => getNodeAuthority node
        | _ => .error (.rejected "Expected object for nodes array item")
      -- the number of points is an `int`
      if 160 * authorities.length < 2 ^ 31 then
        .ok { vb with
          numServers := authorities.length
          servers := authorities.map fun a => ⟨a, none⟩
          continuum := some (updateKetamaContinuum h q authorities) }
      else .error .undefined
  | _ => .error (.rejected "Expected array for nodes")

def parseUser (config : Json) : Option Bytes :=
  match config.getObjectItem "name" with
  | some (.string s) => if s = bytes "default" then none else some s
  | _ => none

def parsePassword (config : Json) : Option Bytes :=
  match config.getObjectItem "saslPassword" with
  | some (.string s) => some s
  | _ => none

def parseCjson (h : Hashes) (q : Qsort) (config : Json) : Except ParseError Config :=
  let vb : Config := ⟨.vbucket, 0, 0, 0, 0, parseUser config, parsePassword config, none, [], none,
    none⟩
  match config.getObjectItem "nodeLocator" with
  | none => parseVbucketConfig vb config
  | some (.string s) =>
    if s = bytes "vbucket" then parseVbucketConfig vb config
    else if s = bytes "ketama" then
      parseKetamaConfig h q { vb with distribution := .ketama } config
    -- another locator leaves the handle as it was allocated
    else .ok vb
  | some _ => .error (.rejected "Expected string for nodeLocator")

/-- `vbucket_config_parse_string` on what cJSON makes of the text. -/
def vbucketConfigParseString (h : Hashes) (q : Qsort) (data : Option Json) :
    Except ParseError Config :=
  match data with
  | none => .error (.rejected "Failed to parse data")
  | some c => parseCjson h q c

inductive Fault
  | assertion
  | null
  | outOfRange
  | unfilled
  | divisionByZero
  deriving DecidableEq, Repr

def hashKetama (h : Hashes) (key : Bytes) : UInt32 := digestPoint (h.md5 key) 0

/-- An entry of the continuum by its distance from `beginp`. -/
def itemAt (items : List Item) (i : ℤ) : Except Fault Item :=
  if 0 ≤ i then
    match items[i.toNat]? with
    | some it => .ok it
    | none => .error .outOfRange
  else .error .outOfRange

/-- The loop of `vbucket_map` from `lowp` and `highp`. -/
def searchContinuum (c : List Item) (digest : UInt32) (low high : ℤ) : Except Fault ℕ :=
  let midp := low + (high - low) / 2
  if midp = c.length then (itemAt c 0).map Item.index
  else
    match itemAt c midp, (if midp = 0 then .ok 0 else (itemAt c (midp - 1)).map Item.point) with
    | .ok mid, .ok prev =>
      if digest ≤ mid.point ∧ digest > prev then .ok mid.index
      else if mid.point < digest then
        if midp + 1 > high then (itemAt c 0).map Item.index
        else searchContinuum c digest (midp + 1) high
      else
        if low > midp - 1 then (itemAt c 0).map Item.index
        else searchContinuum c digest low (midp - 1)
    | .error e, _ => .error e
    | _, .error e => .error e
termination_by (high - low).toNat

def vbucketGetVbucketByKey (h : Hashes) (vb : Config) (key : Bytes) : ℕ :=
  (h.crc32 key).toNat &&& vb.mask

def rowAt (map : Option (List (List ℤ))) (vbucket : ℕ) : Except Fault (List ℤ) :=
  match map with
  | none => .error .null
  | some rows =>
    match rows[vbucket]? with
    | none => .error .outOfRange
    | some row => .ok row

def entryAt (row : List ℤ) (j : ℕ) : Except Fault ℤ :=
  match row[j]? with
  | none => .error .unfilled
  | some s => .ok s

def vbucketGetMaster (vb : Config) (vbucket : ℕ) : Except Fault ℤ := do
  let row ← rowAt vb.vbuckets vbucket
  entryAt row 0

def vbucketMap (h : Hashes) (vb : Config) (key : Bytes) : Except Fault (ℕ × ℤ) :=
  match vb.distribution with
  | .ketama =>
    match vb.continuum with
    | none => .error .assertion
    | some c => do
      let idx ← searchContinuum c (hashKetama h key) 0 c.length
      .ok (0, (idx : ℤ))
  | .vbucket => do
    let vbucket := vbucketGetVbucketByKey h vb key
    let server ← vbucketGetMaster vb vbucket
    .ok (vbucket, server)

/-- The entries after the first one come from the forward map, one by one. -/
def copyReplicas (frow : List ℤ) (row : List ℤ) (i : ℕ) : Except Fault (List ℤ) := do
  let s ← entryAt frow (i + 1)
  .ok (row.set (i + 1) s)

/-- A client has learned that `wrongserver` is not the master of a vbucket. -/
def vbucketFoundIncorrectMaster (vb : Config) (vbucket : ℕ) (wrongserver : ℤ) :
    Except Fault (Config × ℤ) := do
  let row ← rowAt vb.vbuckets vbucket
  let mappedServer ← entryAt row 0
  match vb.fvbuckets with
  | some frows =>
    let frow ← rowAt (some frows) vbucket
    let rv ← entryAt frow 0
    let row ← (List.range vb.numReplicas.toNat).foldlM (copyReplicas frow) (row.set 0 rv)
    .ok ({ vb with vbuckets := vb.vbuckets.map fun rows => rows.set vbucket row }, rv)
  | none =>
    if mappedServer = wrongserver then
      if vb.numServers = 0 then .error .divisionByZero
      else
        let rv := (mappedServer + 1).tmod vb.numServers
        .ok ({ vb with vbuckets := vb.vbuckets.map fun rows => rows.set vbucket (row.set 0 rv) },
          rv)
    else .ok (vb, mappedServer)

end Appstack.Libvbucket
