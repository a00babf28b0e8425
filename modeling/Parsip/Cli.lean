import Parsip.Daemon.Control

-- The command line client: what it asks the daemon for, and how far it follows the answer.

namespace Parsip.Cli

inductive Invocation
  -- What is printed in place of a request.
  | usage (text : String)
  -- The commands that look at the configuration and do not concern the daemon.
  | config (args : List String)
  | ask (cmd : ControlMessage)
deriving DecidableEq

-- `run` up to the connection. The arguments start with the name of the program.
def run : List String → Invocation
  | [] | [_] => .usage "Usage: parsip <command> [args]"
  | _ :: cmd :: args =>
    match cmd, args with
    | "config", _                   => .config args
    | "scan", _                     => .ask .scan
    | "peers", _                    => .ask .listPeers
    | "connect", []                 => .usage "Usage: parsip connect <alias>"
    | "connect", name :: _          => .ask <| .connect name
    | "list", []                    => .usage "Usage: parsip list <peer_alias>"
    | "list", name :: _             => .ask <| .listResources name
    | "get", name :: resource :: _  => .ask <| .getResource name resource
    | "get", _                      => .usage "Usage: parsip get <peer_alias> <resource_alias>"
    | "add", []                     => .usage "Usage: parsip add <file_path>"
    | "add", path :: _              => .ask <| .addResource path
    | _, _                          => .usage <| "Unknown command: " ++ cmd

-- The loop over the responses: those that it prints, and whether it has been left.
def follow : List ControlResponse → List ControlResponse × Bool
  | []                    => ([], false)
  | response :: responses =>
    match response with
    | .downloadProgress _ =>
      let (printed, left) := follow responses
      (response :: printed, left)
    | .ok | .error _ | .scanResults _ | .peersList _ | .resourceList _ | .resourceAdded .. | .downloadComplete .. =>
      ([response], true)

end Parsip.Cli
