import Rover.Cli.Flag
import Rover.Config

namespace Rover
namespace Cli

structure Settings where
  config : Config
  strict : Bool
  scale : Float
  color : Text

namespace Settings

/-- A switch is on if it is switched on anywhere. The scale given after the command counts before
the one given in front of it, and that one before the scale of the configuration. -/
def combine (config : Config) (inFront after : Flags) : Settings where
  config := config
  strict := config.strict || after.strict.getD false || inFront.strict.getD false
  scale := (after.scale <|> inFront.scale).getD config.scale
  color :=
    if after.noColor.getD false || inFront.noColor.getD false then text "never" else config.color

/-- Standard error is taken for no terminal, so that it is colored only on demand. -/
def colored (settings : Settings) : Bool :=
  settings.color == text "always"

def origin (source : Text) : Text :=
  if source.isEmpty then Path.dot else Path.parent source

def load {m : Type → Type} [Monad m] [Config.Decoder] (files : Files m) (directory : Text)
    (inFront after : Flags) (source : Text) : m (Except ConfigError Settings) := do
  let explicit := (after.config <|> inFront.config).getD []
  match ← Config.resolve files directory explicit (origin source) with
  | .ok config => return .ok (combine config inFront after)
  | .error error => return .error error

end Settings
end Cli
end Rover
