import Parsip.Daemon.Basic
import Parsip.Resource.Download
import Parsip.Resource.Store

-- The event loop of the daemon: what `handle_event` makes of one event.

namespace Parsip

-- What the rest of the world answers while one event is handled. `is_connected` is called for one alias after the
-- other, and connections come and go in between.
structure Env where
  isConnected : String → PeerId → Bool
  broadcastScan : Except Error Unit
  now : Nat
  home : Option String
  openFile : PosixPath.Path → Except Error OpenedFile
  io : IoFaults

-- Everybody is connected and nothing fails.
def Env.fine (now : Nat) : Env where
  isConnected _ _ := true
  broadcastScan := .ok ()
  now := now
  home := none
  openFile _ := .ok ⟨.ok 0, []⟩
  io := .none

-- What handling an event sets off, in this order.
inductive Effect
  -- `sender.send`
  | respond (sender : ReplyTo) (response : ControlResponse)
  -- `peer.send`
  | send (target : PeerId) (msg : Message)
  -- `peer.connect` and the thread that waits for it
  | connect (addr : SocketAddr) (reqId : UInt32)
  -- The thread that ends a scan.
  | scanTimer (reqId : UInt32)
  -- The thread that sends a file.
  | upload (target : PeerId) (requestId : UInt32) (id : ResourceId) (path : PosixPath.Path)
deriving DecidableEq

-- What the event loop owns, and the disk and threads that its downloads use.
structure Daemon where
  store : LocalResourceStore
  downloadMgr : DownloadManager
  transferMgr : TransferManager
  aliases : AliasRegistry
  reqTracker : RequestTracker
  storage : Storage

namespace Daemon

def new (store : LocalResourceStore) (downloadsDir : PosixPath.Path) (disk : Disk) : Daemon where
  store := store
  downloadMgr := .new downloadsDir
  transferMgr := .new
  aliases := .new
  reqTracker := .new
  storage := { disk, detached := [] }

-- Ends a request, and answers it if it was pending.
def finish (d : Daemon) (reqId : UInt32) (response : ControlResponse) : Daemon × List Effect :=
  let (sender, reqTracker) := d.reqTracker.complete reqId
  ({ d with reqTracker }, sender.toList.map (.respond · response))

-- One turn of the loop over `resources` in the answer to a `ListResources` request.
def cacheResource (a : AliasRegistry) (res : ResourceInfo) : CtrlResourceInfo × AliasRegistry :=
  let (name, a) := a.addResource res.id
  (⟨name, res.id, res.name, res.size⟩, a.cacheInfo res)

def cacheResources (a : AliasRegistry) : List ResourceInfo → List CtrlResourceInfo × AliasRegistry
  | []       => ([], a)
  | res :: rs =>
    let (info, a) := cacheResource a res
    let (infos, a) := cacheResources a rs
    (info :: infos, a)

def handleMessage (env : Env) (d : Daemon) (peerId : PeerId) : Message → Daemon × List Effect
  | .listResources requestId =>
    (d, [.send peerId <| .resourceList requestId d.store.listResources])
  | .resourceList requestId resources =>
    let (_, aliases) := d.aliases.addPeer peerId
    let (ctrlResources, aliases) := cacheResources aliases resources
    { d with aliases }.finish requestId (.resourceList ctrlResources)
  | .downloadResource requestId id =>
    match d.store.getPath id with
    | some filePath => (d, [.upload peerId requestId id filePath])
    | none          => (d, [])
  | .resourceChunk requestId id _ data =>
    match d.downloadMgr.processChunk id data with
    | (.ok _, downloadMgr) =>
      let (transferMgr, report) := d.transferMgr.updateProgress env.now requestId (.ofNat data.length)
      let d := { d with downloadMgr, transferMgr }
      match report, d.reqTracker.get requestId with
      | some progress, some sender => (d, [.respond sender <| .downloadProgress progress])
      | _, _                       => (d, [])
    | (.error _, downloadMgr) => ({ d with downloadMgr }, [])
  | .resourceEnd requestId id =>
    match d.downloadMgr.completeDownload d.storage env.io id with
    | (.ok (), downloadMgr, storage) =>
      match d.transferMgr.complete requestId with
      | (transferMgr, some t) =>
        let d := { d with downloadMgr, storage, transferMgr }
        d.finish requestId <| .downloadComplete t.bytesTransferred (env.now - t.startTime)
      | (transferMgr, none) => ({ d with downloadMgr, storage, transferMgr }, [])
    | (.error _, downloadMgr, storage) => ({ d with downloadMgr, storage }, [])
  | .hello .. | .helloProof .. => (d, [])

def getResource (env : Env) (d : Daemon) (sender : ReplyTo) (peerAlias resourceAlias : String) :
    Daemon × List Effect :=
  match d.aliases.getPeer peerAlias with
  | none => (d, [.respond sender <| .error <| "Unknown peer alias: " ++ peerAlias])
  | some peerId =>
    match d.aliases.getResource resourceAlias with
    | none => (d, [.respond sender <| .error <| "Unknown resource alias: " ++ resourceAlias])
    | some resId =>
      match d.aliases.getInfo resId with
      | none =>
        (d, [.respond sender <| .error <|
          "Resource metadata missing. Try 'list " ++ peerAlias ++ "' first."])
      | some info =>
        match d.downloadMgr.startDownload d.storage env.io info with
        | (.ok (), downloadMgr, storage) =>
          let (requestId, reqTracker) := d.reqTracker.advance
          let reqTracker := reqTracker.register requestId sender
          let transferMgr := d.transferMgr.register {
            requestId, peerId
            resourceId       := resId
            bytesTransferred := 0
            bytesTotal       := info.size
            startTime        := env.now
            lastReportTime   := env.now
            lastReportBytes  := 0
          }
          ({ d with downloadMgr, storage, reqTracker, transferMgr },
            [.send peerId <| .downloadResource requestId resId])
        | (.error _, downloadMgr, storage) =>
          ({ d with downloadMgr, storage }, [.respond sender <| .error "Failed to start download"])

-- `path.replacen("~", &home, 1)` for a path that starts with `~/`
def expandPath (env : Env) (path : List Char) : PosixPath.Path :=
  match path with
  | '~' :: '/' :: rest => (env.home.getD ".").toList ++ '/' :: rest
  | _                  => path

def addResource [Crypto] (env : Env) (d : Daemon) (sender : ReplyTo) (path : String) :
    Outcome (Daemon × List Effect) :=
  let p := expandPath env path.toList
  match d.store.addResource p (env.openFile p) with
  | .ok ((id, _), store) =>
    let (name, aliases) := d.aliases.addResource id
    .ok ({ d with store, aliases }, [.respond sender <| .resourceAdded name id])
  | .error (.error e) => .ok (d, [.respond sender <| .error e.message])
  | .error .panic     => .error .panic

def handleControl [Crypto] (env : Env) (d : Daemon) (sender : ReplyTo) :
    ControlMessage → Outcome (Daemon × List Effect)
  | .scan =>
    let (reqId, reqTracker) := d.reqTracker.advance
    let d := { d with
      aliases    := { d.aliases with discoveredPeers := ∅ }
      reqTracker := reqTracker.register reqId sender }
    match env.broadcastScan with
    | .error e => .ok <| d.finish reqId <| .error <| "Failed to broadcast: " ++ e.message
    | .ok ()   => .ok (d, [.scanTimer reqId])
  | .connect peerAlias =>
    match d.aliases.discoveredPeers.values.find? (·.alias = peerAlias) with
    | some info =>
      let (reqId, reqTracker) := d.reqTracker.advance
      .ok ({ d with reqTracker := reqTracker.register reqId sender }, [.connect info.address reqId])
    | none => .ok (d, [.respond sender <| .error <| "Unknown peer alias: " ++ peerAlias])
  | .listPeers =>
    let connected := d.aliases.peerAliases.toList.filter fun (name, id) => env.isConnected name id
    .ok (d, [.respond sender <| .peersList <| connected.map fun (name, id) => ⟨name, id⟩])
  | .listResources peerAlias =>
    match d.aliases.getPeer peerAlias with
    | some peerId =>
      let (reqId, reqTracker) := d.reqTracker.advance
      .ok ({ d with reqTracker := reqTracker.register reqId sender },
        [.send peerId <| .listResources reqId])
    | none => .ok (d, [.respond sender <| .error <| "Unknown peer alias: " ++ peerAlias])
  | .getResource peerAlias resourceAlias => .ok <| d.getResource env sender peerAlias resourceAlias
  | .addResource path                    => d.addResource env sender path

-- One turn of the loop over the transfers of a peer that has disconnected.
def cancelTransfer (env : Env) (d : Daemon) (name : String) (t : Transfer) : Daemon × List Effect :=
  let (_, downloadMgr, storage) := d.downloadMgr.cancelDownload d.storage env.io t.resourceId
  { d with downloadMgr, storage }.finish t.requestId <| .error <|
    "Transfer failed: peer " ++ name ++ " disconnected mid-transfer (" ++
      toString t.bytesTransferred.toNat ++ " / " ++ toString t.bytesTotal.toNat ++ " bytes received)"

def cancelTransfers (env : Env) (d : Daemon) (name : String) : List Transfer → Daemon × List Effect
  | []      => (d, [])
  | t :: ts =>
    let (d, fx) := d.cancelTransfer env name t
    let (d, fxs) := d.cancelTransfers env name ts
    (d, fx ++ fxs)

def disconnected (env : Env) (d : Daemon) (peerId : PeerId) : Daemon × List Effect :=
  let name := d.aliases.peerAliases.toList.find? (·.snd = peerId) |>.elim peerId.debug Prod.fst
  let (transferMgr, cancelled) := d.transferMgr.cancelForPeer peerId
  { d with transferMgr }.cancelTransfers env name cancelled

def discovered (d : Daemon) (peerId : PeerId) (addr : SocketAddr) (nickname : String) : Daemon :=
  let (name, aliases) := d.aliases.addPeer peerId
  if aliases.discoveredPeers.contains peerId then { d with aliases }
  else { d with aliases := { aliases with
    discoveredPeers := aliases.discoveredPeers.insert peerId ⟨name, nickname, addr⟩ } }

def handleEvent [Crypto] (env : Env) (d : Daemon) : PeerEvent → Outcome (Daemon × List Effect)
  | .discovered peerId addr nickname => .ok (d.discovered peerId addr nickname, [])
  | .newConnection peerId            => .ok ({ d with aliases := (d.aliases.addPeer peerId).snd }, [])
  | .disconnected peerId             => .ok <| d.disconnected env peerId
  | .message peerId msg              => .ok <| d.handleMessage env peerId msg
  | .controlRequest cmd sender       => d.handleControl env sender cmd
  | .scanTimeout reqId               => .ok <| d.finish reqId <| .scanResults d.aliases.discoveredPeers.values
  | .connectResult reqId result      =>
    .ok <| d.finish reqId <| match result with
      | .ok _    => .ok
      | .error e => .error e

end Daemon
end Parsip
