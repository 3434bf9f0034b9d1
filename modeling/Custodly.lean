import Custodly.Library.KeyValue
import Custodly.Library.Codec
import Custodly.Library.Interleaving
import Custodly.Library.Processes
import Custodly.Library.WriteOnce
import Custodly.Library.Rely
import Custodly.Library.Lockstep
import Custodly.Library.Surroundings
import Custodly.Core.Policy
import Custodly.Core.Entry
import Custodly.Core.EntryJson
import Custodly.Core.Making
import Custodly.Vault.Notes
import Custodly.Github.Grant
import Custodly.Cli.Permission
import Custodly.Core.Contract
import Custodly.Host
import Custodly.Core.Seal
import Custodly.Vault.Complete
import Custodly.Vault.Lossless
import Custodly.Vault.Password
import Custodly.Vault.Keystore
import Custodly.Vault.Vault
import Custodly.Vault.Filing
import Custodly.Vault.Store
import Custodly.Vault.RoundTrip
import Custodly.Vault.Rotation
import Custodly.Vault.Children
import Custodly.Vault.Shared
import Custodly.Vault.Amidst
import Custodly.Core.Client
import Custodly.Core.Wire
import Custodly.Github.App
import Custodly.Github.Quarantine
import Custodly.Cli.MintGithub
import Custodly.Cli.Custody
import Custodly.Cli.Effects
import Custodly.Cli.Exchange
import Custodly.Cli.Secrecy
import Custodly.Cli.GitCredential
import Custodly.Cli.Command
import Custodly.Cli.Together
import Custodly.Cli.Available
import Custodly.Cli.Contest
import Custodly.Cli.Delivery
import Custodly.Cli.Keys
import Custodly.Cli.Audit
import Custodly.Library.Delimited
import Custodly.Cli.Protocol
import Custodly.Github.Wire
import Custodly.Cli.Granting
import Custodly.Vault.FirstUse
import Custodly.Library.FormUrlencoded
import Custodly.Core.Server
